import TestCodes.Lib.Machine
import TestCodes.SvrMaster.MsgHandler

/-! Runs of the whole master, against the calls of the player manager: what a
handler leaves of the players, a run of those calls leaves as well. -/
namespace TestCodes.SvrMaster
open Machine

/-- What reaches the master: a message, the tick of the session validator, or a
change of the live servers. -/
inductive Input where
  | msg (pFrom : CVSock) (request : Request)
  | tick
  | config (svcConfig : CSvcConfig)

/-- An input, with the time and the key that `SetPlayerAuthKey(1)` would draw. -/
structure Arrival where
  time : Int
  ticket : Ticket
  input : Input

structure Handled where
  input : Input
  actions : List Action

structure Server (C : Type) where
  master : Master C
  svcConfig : CSvcConfig
  log : List Handled

def Server.init {C : Type} (vecPlayerID : C) (svcConfig : CSvcConfig) : Server C :=
  ⟨.init vecPlayerID, svcConfig, []⟩

def Server.step {C : Type} (o : Outside C) (s : Server C) (a : Arrival) : Option (Server C) :=
  match a.input with
  | .msg pFrom request =>
      (s.master.handler o s.svcConfig a.time a.ticket pFrom request).map fun (_, actions, master) =>
        { s with master, log := s.log ++ [⟨a.input, actions⟩] }
  | .tick => (s.master.tickProcess o a.time).map fun master =>
      { s with master, log := s.log ++ [⟨a.input, []⟩] }
  | .config svcConfig => some { s with svcConfig, log := s.log ++ [⟨a.input, []⟩] }

/-- The UID whose player gets a drawn key. -/
def Op.issuesTo : Op → Option UID
  | .setPlayerAuthKey uid key => if key = 0 then none else some uid
  | _ => none

def Op.player : Op → Option UID
  | .playerCheckIn uid | .reserveMoveSession uid | .logOut uid _ | .logOutForce uid
  | .setPlayerAuthKey uid _ | .setSvrKey uid _ => some uid
  | .logIn .. | .expireSession _ | .tickProcess => none

/-- The call is one of the tick's, which no handler makes. -/
def Op.expires : Op → Bool
  | .expireSession _ | .tickProcess => true
  | _ => false

def Op.drawsKey : Op → Bool
  | .logIn .. | .reserveMoveSession _ => true
  | _ => false

/-- The UID whose player the message is about; the message of a community server
about all its players only registers. -/
def Request.player : Request → Option UID
  | .dbQueryRes _ _ query => query.map DBQueryLogin.uid
  | .gameLogOut uid _ | .gameLoginReq uid .. | .communityGameLogin uid | .shutdownUsr uid
  | .gameMoveCommunityReq uid .. => some uid
  | .allPlayerInfo _ => none

def Request.keys : Request → ℕ
  | .dbQueryRes _ _ query => if query.isSome then 1 else 0
  | .allPlayerInfo players => players.length
  | .gameMoveCommunityReq .. => 1
  | _ => 0

def Input.player : Input → Option UID
  | .msg _ request => request.player
  | _ => none

def Input.keys : Input → ℕ
  | .msg _ request => request.keys
  | _ => 0

/-- The manager gets from one state to the other by calls made at `now`, with a key
drawn only for players to whom one of the actions issues it. -/
abbrev Calls {C : Type} (o : Outside C) (now : Int) (actions : List Action) :
    Master C → Master C → Prop :=
  Performs (Master.step o) fun e =>
    e.time = now ∧ ∀ uid, e.op.issuesTo = some uid → Action.issue uid ∈ actions

/-- What the handler of a message about the player of `target` may call. -/
structure Op.Serves (target : Option UID) (actions : List Action) (op : Op) : Prop where
  issues : ∀ uid, op.issuesTo = some uid → Action.issue uid ∈ actions
  player : ∀ uid, op.player = some uid → target = some uid
  keeps : op.expires = false

/-- As `Calls`, about one player, with at most so many session keys drawn. -/
abbrev Makes {C : Type} (o : Outside C) (now : Int) (target : Option UID)
    (actions : List Action) : ℕ → Master C → Master C → Prop :=
  PerformsWithin (Master.step o) (fun e => e.time = now ∧ e.op.Serves target actions)
    fun e => e.op.drawsKey

namespace Makes
variable {C : Type} {o : Outside C} {cfg : CSvcConfig} {now : Int} {target : Option UID}
  {actions : List Action} {keys : ℕ} {m m' : Master C}

theorem calls (h : Makes o now target actions keys m m') : Calls o now actions m m' :=
  h.performs fun _ he => ⟨he.1, he.2.issues⟩

theorem quiet {uid : UID} (op : Op) (hplayer : op.player = some uid) (hissue : op.issuesTo = none)
    (hexpires : op.expires = false) (hdraws : op.drawsKey = false)
    (h : m.step o ⟨now, op⟩ = some m') : Makes o now (some uid) actions 0 m m' := by
  refine .single ⟨rfl, ?_, ?_, hexpires⟩ (fun hd => ?_) h
  · intro u hu
    rw [hissue] at hu
    cases hu
  · intro u hu
    rw [← hplayer, hu]
  · rw [hdraws] at hd
    cases hd

theorem onPlayer {uid : UID} {p : Ptr} (hp : m.getPlayerByUID uid = some p)
    (f : Ptr → Master C → Option (Master C)) (h : f p m = some m') :
    m.onPlayer uid f = some m' := by
  rw [Master.onPlayer, hp]
  exact h

theorem logIn (m : Master C) (uid : UID) (account : String) (keySvr : LKEY) :
    Makes o now target actions 1 m (m.logIn o now uid account keySvr).2 := by
  refine .single (e := ⟨now, .logIn uid account keySvr⟩) ⟨rfl, ?_, ?_, rfl⟩
    (fun _ => Nat.le_refl 1) rfl
  · intro u hu
    cases hu
  · intro u hu
    cases hu

theorem logOutForce {uid : UID} (h : m.logOutForce o uid = some m') :
    Makes o now (some uid) actions 0 m m' :=
  quiet (.logOutForce uid) rfl rfl rfl rfl h

theorem shutdownUser {uid : UID} {r : List Action × Master C}
    (h : m.shutdownUser o uid = some r) : Makes o now (some uid) actions 0 m r.2 := by
  obtain ⟨m₁, hout, rfl⟩ := Option.map_eq_some_iff.mp h
  exact logOutForce hout

theorem setPlayer_find {f : CPlayer → CPlayer} {p : Ptr} (h : Master.setPlayer f p m = some m')
    (uid : UID) : m'.getPlayerByUID uid = m.getPlayerByUID uid := by
  obtain ⟨player, -, rfl⟩ := Master.setPlayer_cases h
  rfl

theorem setSvrKey {uid : UID} {p : Ptr} (hp : m.getPlayerByUID uid = some p) {key : LKEY}
    (h : m.setSvrKey key p = some m') : Makes o now (some uid) actions 0 m m' :=
  quiet (.setSvrKey uid key) rfl rfl rfl rfl (onPlayer hp (Master.setSvrKey key) h)

theorem issue {uid : UID} {p : Ptr} (hp : m.getPlayerByUID uid = some p) {key : UInt64}
    (hissue : Action.issue uid ∈ actions) (h : m.setPlayerAuthKey key p = some m') :
    Makes o now (some uid) actions 0 m m' := by
  refine .single (e := ⟨now, .setPlayerAuthKey uid key⟩) ⟨rfl, ?_, fun u hu => hu, rfl⟩
    (fun hd => by cases hd) (onPlayer hp (Master.setPlayerAuthKey key) h)
  intro u hu
  simp only [Op.issuesTo] at hu
  split at hu
  · cases hu
  · rwa [← Option.some.inj hu]

theorem take {uid : UID} {p : Ptr} (hp : m.getPlayerByUID uid = some p) {m₁ : Master C}
    (hset : m.setPlayerAuthKey 0 p = some m₁) (hcheck : m₁.playerCheckIn p = some m') :
    Makes o now (some uid) actions 0 m m' ∧ m'.getPlayerByUID uid = some p := by
  have hp₁ : m₁.getPlayerByUID uid = some p := (setPlayer_find hset uid).trans hp
  constructor
  · exact PerformsWithin.trans (n := 0) (k := 0)
      (quiet (.setPlayerAuthKey uid 0) rfl rfl rfl rfl
        (onPlayer hp (Master.setPlayerAuthKey 0) hset))
      (quiet (.playerCheckIn uid) rfl rfl rfl rfl (onPlayer hp₁ Master.playerCheckIn hcheck))
  · obtain ⟨player, -, rfl⟩ := Option.map_eq_some_iff.mp hcheck
    exact hp₁

theorem reserveMoveSession {uid : UID} {p : Ptr} (hp : m.getPlayerByUID uid = some p)
    {r : Bool × Master C} (h : m.reserveMoveSession o now p = some r) :
    Makes o now (some uid) actions 1 m r.2 ∧ r.2.getPlayerByUID uid = some p := by
  constructor
  · refine .single (e := ⟨now, .reserveMoveSession uid⟩) ⟨rfl, ?_, fun u hu => hu, rfl⟩
      (fun _ => Nat.le_refl 1) ?_
    · intro u hu
      cases hu
    · apply onPlayer hp fun p m => (m.reserveMoveSession o now p).map Prod.snd
      rw [h, Option.map_some]
  · obtain ⟨player, -, rfl⟩ := Option.map_eq_some_iff.mp h
    exact hp

/-- The login that is refused has drawn no key and changed nothing. -/
theorem logInOrKick {query : DBQueryLogin} {keySvr : LKEY}
    {r : List Action × Option Ptr × Master C}
    (h : m.logInOrKick o cfg now query keySvr = some r) :
    Makes o now (some query.uid) actions 1 m r.2.2 ∧
      ∀ p, r.2.1 = some p → r.2.2.getPlayerByUID query.uid = some p := by
  unfold Master.logInOrKick at h
  split at h
  · rename_i p m₁ hfirst
    obtain rfl := Option.some.inj h
    refine ⟨?_, ?_⟩
    · have hlog : Makes o now (some query.uid) actions 1 m _ :=
        logIn m query.uid query.userID keySvr
      rwa [hfirst] at hlog
    · rintro _ ⟨⟩
      exact Master.logIn_find hfirst
  · rename_i m₁ hfirst
    obtain rfl := Master.logIn_refused hfirst
    split at h
    · obtain ⟨⟨kicked, m₂⟩, hshut, rfl⟩ := Option.map_eq_some_iff.mp h
      refine ⟨PerformsWithin.trans (n := 0) (shutdownUser hshut) (logIn ..), ?_⟩
      intro p hp
      exact Master.logIn_find (Prod.ext hp rfl)
    · obtain rfl := Option.some.inj h
      exact ⟨.refl _ _ _ _ _, fun _ hp => by cases hp⟩

theorem dbQueryRes {ticket : Ticket} {pFrom : CVSock} {keySvr keyUsr : LKEY}
    {query : DBQueryLogin} {r : Answer C}
    (h : m.dbQueryRes o cfg now ticket pFrom keySvr keyUsr query = some r) :
    Makes o now (some query.uid) r.2.1 1 m r.2.2 := by
  unfold Master.dbQueryRes at h
  split at h
  · obtain rfl := Option.some.inj h
    exact .refl _ _ _ _ _
  · split at h
    · obtain rfl := Option.some.inj h
      exact .refl _ _ _ _ _
    · obtain ⟨⟨kicked, pPlayer, m₁⟩, hkick, h⟩ := Option.bind_eq_some_iff.mp h
      cases pPlayer with
      | none =>
          obtain rfl := Option.some.inj h
          exact (logInOrKick hkick).1
      | some p =>
          obtain ⟨⟨sent, m₂⟩, hlogin, rfl⟩ := Option.map_eq_some_iff.mp h
          obtain ⟨m₃, hset, hsend⟩ := Option.bind_eq_some_iff.mp hlogin
          obtain ⟨player, -, hpair⟩ := Option.map_eq_some_iff.mp hsend
          obtain ⟨rfl, rfl⟩ := Prod.mk.inj hpair
          obtain ⟨hmakes, hfind⟩ := logInOrKick hkick
          exact hmakes.trans (issue (hfind p rfl) (by simp) hset)

theorem gameLogOut {pFrom : CVSock} {uid : UID} {key : LKEY} {r : Answer C}
    (h : m.gameLogOut o cfg pFrom uid key = some r) :
    Makes o now (some uid) actions 0 m r.2.2 := by
  obtain ⟨⟨found, info, m₁⟩, hout, rfl⟩ := Option.map_eq_some_iff.mp h
  have hcall : Makes o now (some uid) actions 0 m m₁ := by
    apply quiet (.logOut uid (cfg.findServerKey pFrom)) rfl rfl rfl rfl
    simp only [Master.step, hout, Option.map_some]
  simp only
  split
  · exact hcall
  · split
    · exact hcall
    · split
      · exact hcall
      · split <;> exact hcall

theorem allPlayerInfo (m : Master C) (pFrom : CVSock) (players : List (UID × String)) :
    Makes o now target actions players.length m (m.allPlayerInfo o cfg now pFrom players).2.2 := by
  induction players generalizing m with
  | nil => exact .refl _ _ _ _ _
  | cons player players ih =>
      rw [Master.allPlayerInfo_cons, List.length_cons, Nat.add_comm]
      refine PerformsWithin.trans ?_ (ih _)
      split
      · exact .refl _ _ _ _ _
      · exact logIn ..

theorem gameLoginReq {pFrom : CVSock} {uid : UID} {key keySvr : LKEY} {playerAuthKey : UInt64}
    {r : Answer C} (h : m.gameLoginReq o cfg pFrom uid key keySvr playerAuthKey = some r) :
    Makes o now (some uid) actions 0 m r.2.2 := by
  obtain ⟨rfl, -⟩ | ⟨p, player, m₁, m₂, hp, -, -, hset, hcheck, hrest⟩ :=
    Master.gameLoginReq_cases h
  · exact .refl _ _ _ _ _
  · obtain ⟨hmakes, hp₂⟩ : Makes o now (some uid) actions 0 m m₂ ∧ _ := take hp hset hcheck
    rcases hrest with rfl | ⟨keyCommunity, msg, hsvr, -⟩
    · exact hmakes
    · exact hmakes.trans (setSvrKey hp₂ hsvr)

theorem communityGameLogin {pFrom : CVSock} {uid : UID} {r : Answer C}
    (h : m.communityGameLogin o cfg pFrom uid = some r) :
    Makes o now (some uid) actions 0 m r.2.2 := by
  unfold Master.communityGameLogin at h
  split at h
  · obtain rfl := Option.some.inj h
    exact .refl _ _ _ _ _
  · rename_i p hp
    simp only at h
    split at h
    · obtain rfl := Option.some.inj h
      exact .refl _ _ _ _ _
    · obtain ⟨m₁, hset, rfl⟩ := Option.map_eq_some_iff.mp h
      exact setSvrKey hp hset

theorem gameMoveCommunityReq {ticket : Ticket} {pFrom : CVSock} {uid : UID} {key keySvr : LKEY}
    {gidStage : ℕ} {communitySvrIdx : Int} {r : Answer C}
    (h : m.gameMoveCommunityReq o cfg now ticket pFrom uid key keySvr gidStage communitySvrIdx =
      some r) : Makes o now (some uid) r.2.1 1 m r.2.2 := by
  unfold Master.gameMoveCommunityReq at h
  split at h
  · obtain rfl := Option.some.inj h
    exact .refl _ _ _ _ _
  · rename_i p hp
    split at h
    · obtain rfl := Option.some.inj h
      exact .refl _ _ _ _ _
    · obtain ⟨⟨reserved, m₁⟩, hreserve, h⟩ := Option.bind_eq_some_iff.mp h
      simp only at h
      split at h
      · obtain rfl := Option.some.inj h
        exact (reserveMoveSession hp hreserve).1
      · obtain ⟨m₂, hset, rfl⟩ := Option.map_eq_some_iff.mp h
        obtain ⟨hmakes, hp₁⟩ := reserveMoveSession hp hreserve
        exact hmakes.trans (issue hp₁ (by simp) hset)

/-- Every handler is a run of the manager's calls, made at the time of the message
and about the player of the message. -/
theorem handler {ticket : Ticket} {pFrom : CVSock} {request : Request} {r : Answer C}
    (h : m.handler o cfg now ticket pFrom request = some r) :
    Makes o now request.player r.2.1 request.keys m r.2.2 := by
  cases request with
  | dbQueryRes keySvr keyUsr query =>
      cases query with
      | none =>
          obtain rfl := Option.some.inj h
          exact .refl _ _ _ _ _
      | some query => exact dbQueryRes h
  | gameLogOut accountUID key => exact gameLogOut h
  | allPlayerInfo players =>
      obtain rfl := Option.some.inj h
      exact allPlayerInfo ..
  | gameLoginReq uid key keySvr playerAuthKey => exact gameLoginReq h
  | communityGameLogin accountUID => exact communityGameLogin h
  | shutdownUsr uid =>
      obtain ⟨⟨sent, m₁⟩, hshut, rfl⟩ := Option.map_eq_some_iff.mp h
      exact shutdownUser hshut
  | gameMoveCommunityReq uid key keySvr gidStage communitySvrIdx =>
      exact gameMoveCommunityReq h

end Makes

inductive Server.Effect {C : Type} (o : Outside C) (s : Server C) (a : Arrival) :
    Server C → Prop
  | handled {pFrom : CVSock} {request : Request} {r : Answer C} : a.input = .msg pFrom request →
      s.master.handler o s.svcConfig a.time a.ticket pFrom request = some r →
      Effect o s a ⟨r.2.2, s.svcConfig, s.log ++ [⟨a.input, r.2.1⟩]⟩
  | ticked {m : Master C} : a.input = .tick → s.master.tickProcess o a.time = some m →
      Effect o s a ⟨m, s.svcConfig, s.log ++ [⟨a.input, []⟩]⟩
  | configured (svcConfig : CSvcConfig) : a.input = .config svcConfig →
      Effect o s a ⟨s.master, svcConfig, s.log ++ [⟨a.input, []⟩]⟩

theorem Server.step_cases {C : Type} {o : Outside C} {s s' : Server C} {a : Arrival}
    (h : s.step o a = some s') : s.Effect o a s' := by
  unfold Server.step at h
  cases hin : a.input with
  | msg pFrom request =>
      simp only [hin] at h
      obtain ⟨r, hr, rfl⟩ := Option.map_eq_some_iff.mp h
      rw [← hin]
      exact .handled hin hr
  | tick =>
      simp only [hin] at h
      obtain ⟨m, hm, rfl⟩ := Option.map_eq_some_iff.mp h
      rw [← hin]
      exact .ticked hin hm
  | config svcConfig =>
      simp only [hin] at h
      obtain rfl := Option.some.inj h
      rw [← hin]
      exact .configured svcConfig hin

theorem Server.step_calls {C : Type} {o : Outside C} {s s' : Server C} {a : Arrival}
    (h : s.step o a = some s') : ∃ handled, s'.log = s.log ++ [handled] ∧
      handled.input = a.input ∧ Calls o a.time handled.actions s.master s'.master := by
  cases Server.step_cases h with
  | handled _ hr => exact ⟨_, rfl, rfl, (Makes.handler hr).calls⟩
  | ticked _ hm =>
      refine ⟨_, rfl, rfl, .single (e := ⟨a.time, .tickProcess⟩) ⟨rfl, ?_⟩ hm⟩
      intro u hu
      cases hu
  | configured => exact ⟨_, rfl, rfl, .refl _ _ _⟩

/-! Where a step of the master comes to a deleted player. -/

/-- The player registered under the UID, if there is one, is not deleted. -/
def Master.Finds {C : Type} (m : Master C) (uid : UID) : Prop :=
  ∀ p ∈ m.getPlayerByUID uid, (m.heap.find p).isSome

instance {C : Type} (m : Master C) (uid : UID) : Decidable (m.Finds uid) :=
  inferInstanceAs (Decidable (∀ p ∈ m.getPlayerByUID uid, _))

namespace Master.Finds
variable {C : Type} {o : Outside C} {cfg : CSvcConfig} {now : Int} {m : Master C} {uid : UID}

theorem setPlayer_defined (f : CPlayer → CPlayer) {p : Ptr} (hl : (m.heap.find p).isSome) :
    ∃ m', setPlayer f p m = some m' ∧ (m'.heap.find p).isSome := by
  obtain ⟨player, hl⟩ := Option.isSome_iff_exists.mp hl
  refine ⟨_, by rw [setPlayer, hl, Option.map_some], ?_⟩
  rw [StdMap.find_set, if_pos rfl, Option.isSome_some]

theorem logOutPlayer_defined {p : Ptr} (hl : (m.heap.find p).isSome) :
    ∃ m', m.logOutPlayer o p = some m' := by
  obtain ⟨player, hl⟩ := Option.isSome_iff_exists.mp hl
  exact ⟨_, by rw [logOutPlayer, hl, Option.map_some]⟩

theorem shutdownUser (h : m.Finds uid) : ∃ r, m.shutdownUser o uid = some r := by
  unfold Master.shutdownUser logOutForce
  split
  · exact ⟨_, rfl⟩
  · rename_i p hp
    obtain ⟨m', hm⟩ := logOutPlayer_defined (o := o) (h p hp)
    exact ⟨_, by rw [hm, Option.map_some]⟩

/-- A player that has logged in is there, whatever the maps lead to. -/
theorem logIn_live {account : String} {keySvr : LKEY} {p : Ptr} {m' : Master C}
    (h : m.logIn o now uid account keySvr = (some p, m')) : (m'.heap.find p).isSome := by
  unfold logIn at h
  split at h
  · cases h
  · split at h
    · cases h
    · obtain ⟨hp, rfl⟩ := Prod.mk.inj h
      obtain rfl := Option.some.inj hp
      rw [logInUpdate, StdMap.find_set, if_pos rfl, Option.isSome_some]

theorem logInOrKick (o : Outside C) (cfg : CSvcConfig) (now : Int) {query : DBQueryLogin}
    (h : m.Finds query.uid) (keySvr : LKEY) :
    ∃ r, m.logInOrKick o cfg now query keySvr = some r ∧
      ∀ p, r.2.1 = some p → (r.2.2.heap.find p).isSome := by
  unfold Master.logInOrKick
  split
  · rename_i p m₁ hfirst
    refine ⟨_, rfl, ?_⟩
    rintro _ ⟨⟩
    exact logIn_live hfirst
  · rename_i m₁ hfirst
    obtain rfl := logIn_refused hfirst
    split
    · obtain ⟨⟨kicked, m₂⟩, hshut⟩ := h.shutdownUser (o := o)
      refine ⟨_, by rw [hshut, Option.map_some], ?_⟩
      intro p hp
      exact logIn_live (Prod.ext hp rfl)
    · exact ⟨_, rfl, fun _ hp => by cases hp⟩

theorem dbQueryRes {query : DBQueryLogin} (h : m.Finds query.uid) (ticket : Ticket)
    (pFrom : CVSock) (keySvr keyUsr : LKEY) :
    ∃ r, m.dbQueryRes o cfg now ticket pFrom keySvr keyUsr query = some r := by
  unfold Master.dbQueryRes
  split
  · exact ⟨_, rfl⟩
  · split
    · exact ⟨_, rfl⟩
    · obtain ⟨⟨kicked, pPlayer, m₁⟩, hkick, hlive⟩ := h.logInOrKick o cfg now keySvr
      rw [hkick, Option.bind_some]
      cases pPlayer with
      | none => exact ⟨_, rfl⟩
      | some p =>
          obtain ⟨m₂, hset, hl⟩ := setPlayer_defined
            (fun player => { player with playerAuthKey := ticket }) (hlive p rfl)
          obtain ⟨player, hl⟩ := Option.isSome_iff_exists.mp hl
          simp only [issueLogin, setPlayerAuthKey, hset, Option.bind_some, hl, Option.map_some]
          exact ⟨_, rfl⟩

theorem gameLogOut (h : m.Finds uid) (pFrom : CVSock) (key : LKEY) :
    ∃ r, m.gameLogOut o cfg pFrom uid key = some r := by
  unfold Master.gameLogOut logOut
  split
  · exact ⟨_, rfl⟩
  · rename_i p hp
    obtain ⟨player, hl⟩ := Option.isSome_iff_exists.mp (h p hp)
    obtain ⟨m', hm⟩ := logOutPlayer_defined (o := o) (h p hp)
    simp only [hl, hm, Option.bind_some, Option.map_some]
    split
    · exact ⟨_, rfl⟩
    · split <;> exact ⟨_, rfl⟩

theorem gameLoginReq (h : m.Finds uid) (pFrom : CVSock) (key keySvr : LKEY)
    (playerAuthKey : UInt64) :
    ∃ r, m.gameLoginReq o cfg pFrom uid key keySvr playerAuthKey = some r := by
  unfold Master.gameLoginReq
  split
  · exact ⟨_, rfl⟩
  · rename_i p hp
    obtain ⟨player, hl⟩ := Option.isSome_iff_exists.mp (h p hp)
    rw [hl, Option.bind_some]
    split
    · exact ⟨_, rfl⟩
    · obtain ⟨m₁, hset, hl₁⟩ := setPlayer_defined
        (fun player => { player with playerAuthKey := 0 }) (h p hp)
      obtain ⟨player₁, hl₁⟩ := Option.isSome_iff_exists.mp hl₁
      simp only [setPlayerAuthKey, hset, Option.bind_some, playerCheckIn, hl₁, Option.map_some]
      split
      · exact ⟨_, rfl⟩
      · obtain ⟨m₃, hsvr, -⟩ := setPlayer_defined (m := m₁.playerCheckInUpdate player₁)
          (fun player => { player with svrKey := cfg.findServerKey pFrom })
          (Option.isSome_of_eq_some hl₁)
        exact ⟨_, by rw [setSvrKey, hsvr, Option.map_some]⟩

theorem communityGameLogin (h : m.Finds uid) (pFrom : CVSock) :
    ∃ r, m.communityGameLogin o cfg pFrom uid = some r := by
  unfold Master.communityGameLogin
  split
  · exact ⟨_, rfl⟩
  · rename_i p hp
    simp only
    split
    · exact ⟨_, rfl⟩
    · obtain ⟨m', hset, -⟩ := setPlayer_defined
        (fun player => { player with svrKey := cfg.findServerKey pFrom }) (h p hp)
      exact ⟨_, by rw [setSvrKey, hset, Option.map_some]⟩

theorem gameMoveCommunityReq (h : m.Finds uid) (ticket : Ticket) (pFrom : CVSock)
    (key keySvr : LKEY) (gidStage : ℕ) (communitySvrIdx : Int) :
    ∃ r, m.gameMoveCommunityReq o cfg now ticket pFrom uid key keySvr gidStage communitySvrIdx =
      some r := by
  unfold Master.gameMoveCommunityReq
  split
  · exact ⟨_, rfl⟩
  · rename_i p hp
    split
    · exact ⟨_, rfl⟩
    · obtain ⟨player, hl⟩ := Option.isSome_iff_exists.mp (h p hp)
      rw [reserveMoveSession, hl, Option.map_some, Option.bind_some]
      simp only
      split
      · exact ⟨_, rfl⟩
      · obtain ⟨m', hset, -⟩ := setPlayer_defined (m := m.reserveMoveSessionUpdate o now p player)
          (fun player => { player with playerAuthKey := ticket })
          (by rw [reserveMoveSessionUpdate, StdMap.find_set, if_pos rfl, Option.isSome_some])
        exact ⟨_, by rw [setPlayerAuthKey, hset, Option.map_some]⟩

end Master.Finds

/-- Every handler comes only to the player of its message. -/
theorem Master.handler_defined {C : Type} {m : Master C} (o : Outside C) (cfg : CSvcConfig)
    (now : Int) (ticket : Ticket) (pFrom : CVSock) {request : Request}
    (h : ∀ uid ∈ request.player, m.Finds uid) :
    ∃ r, m.handler o cfg now ticket pFrom request = some r := by
  cases request with
  | dbQueryRes keySvr keyUsr query =>
      cases query with
      | none => exact ⟨_, rfl⟩
      | some query => exact (h query.uid rfl).dbQueryRes ticket pFrom keySvr keyUsr
  | gameLogOut accountUID key => exact (h accountUID rfl).gameLogOut pFrom key
  | allPlayerInfo players => exact ⟨_, rfl⟩
  | gameLoginReq uid key keySvr playerAuthKey =>
      exact (h uid rfl).gameLoginReq pFrom key keySvr playerAuthKey
  | communityGameLogin accountUID => exact (h accountUID rfl).communityGameLogin pFrom
  | shutdownUsr uid =>
      obtain ⟨r, hshut⟩ := (h uid rfl).shutdownUser (o := o)
      exact ⟨_, by rw [handler, hshut, Option.map_some]⟩
  | gameMoveCommunityReq uid key keySvr gidStage communitySvrIdx =>
      exact (h uid rfl).gameMoveCommunityReq ticket pFrom key keySvr gidStage communitySvrIdx

/-- The due sessions lead to players that are not deleted, each to another one. -/
def Master.FindsDue {C : Type} (m : Master C) (due : List Session) : Prop :=
  (∀ s ∈ due, ∀ p ∈ m.mapUserSession.find s.sessionKey, (m.heap.find p).isSome) ∧
    due.Pairwise fun s s' =>
      ∀ p ∈ m.mapUserSession.find s.sessionKey, m.mapUserSession.find s'.sessionKey ≠ some p

instance {C : Type} (m : Master C) (due : List Session) : Decidable (m.FindsDue due) :=
  inferInstanceAs (Decidable (_ ∧ _))

theorem Master.FindsDue.tickSessions {C : Type} {o : Outside C} {timeCur : Int}
    {sessions : List Session} {m : Master C}
    (h : m.FindsDue (sessions.takeWhile (·.timeExpiration ≤ timeCur))) :
    ∃ m', m.tickSessions o timeCur sessions = some m' := by
  induction sessions generalizing m with
  | nil => exact ⟨m, rfl⟩
  | cons current rest ih =>
      unfold Master.tickSessions
      split
      · exact ⟨m, rfl⟩
      · rename_i hdue
        rw [List.takeWhile_cons_of_pos (by simpa using hdue)] at h
        obtain ⟨hfound, hother⟩ := h
        obtain ⟨hcurrent, hrest⟩ := List.forall_mem_cons.mp hfound
        obtain ⟨hfirst, hpairs⟩ := List.pairwise_cons.mp hother
        unfold expireSession
        split
        · exact ih (m := m.popFront) ⟨hrest, hpairs⟩
        · rename_i p hp
          obtain ⟨player, hl⟩ := Option.isSome_iff_exists.mp (hcurrent p hp)
          rw [logOutPlayer, hl, Option.map_some, Option.bind_some]
          refine ih (m := (m.logOutUpdate o p player).popFront) ⟨?_, hpairs.imp ?_⟩
          · intro s hs q hq
            have hq' := (StdMap.find_eraseKey_some hq).2
            have hqp : q ≠ p := by
              rintro rfl
              exact hfirst s hs q hp hq'
            simp only [popFront, logOutUpdate, StdMap.find_eraseKey, if_neg hqp]
            exact hrest s hs q hq'
          · intro s s' hs q hq hq'
            exact hs q (StdMap.find_eraseKey_some hq).2 (StdMap.find_eraseKey_some hq').2

/-- The input comes to no deleted player: not to that of the message, and a tick to
none whose session is due. -/
def Server.Finds {C : Type} (s : Server C) (time : Int) : Input → Prop
  | .msg _ request => ∀ uid ∈ request.player, s.master.Finds uid
  | .tick =>
      s.master.FindsDue (s.master.validator.listWaitSessions.takeWhile (·.timeExpiration ≤ time))
  | .config _ => True

instance {C : Type} (s : Server C) (time : Int) : ∀ input, Decidable (s.Finds time input)
  | .msg _ request => inferInstanceAs (Decidable (∀ uid ∈ request.player, _))
  | .tick => inferInstanceAs (Decidable (s.master.FindsDue _))
  | .config _ => inferInstanceAs (Decidable True)

theorem Server.Finds.step {C : Type} {s : Server C} {a : Arrival} (h : s.Finds a.time a.input)
    (o : Outside C) : ∃ s', s.step o a = some s' := by
  unfold Server.step
  cases hin : a.input with
  | msg pFrom request =>
      rw [hin] at h
      obtain ⟨r, hr⟩ := Master.handler_defined o s.svcConfig a.time a.ticket pFrom h
      exact ⟨_, by simp only [hr, Option.map_some]; rfl⟩
  | tick =>
      rw [hin] at h
      obtain ⟨m, hm⟩ := Master.FindsDue.tickSessions (o := o) h
      exact ⟨_, by simp only [Master.tickProcess, hm, Option.map_some]; rfl⟩
  | config svcConfig => exact ⟨_, rfl⟩

end TestCodes.SvrMaster
