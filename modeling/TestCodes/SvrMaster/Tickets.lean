import TestCodes.Lib.OneShot
import TestCodes.SvrMaster.HandlerRuns

/-! The tickets in the runs of the master: a login request takes the ticket of its
player. -/
namespace TestCodes.SvrMaster
open Machine OneShot

def Handled.issues (uid : UID) (h : Handled) : Bool := decide (.issue uid ∈ h.actions)

def Action.isGameLoginOK : Action → Bool
  | .send _ (.gameLoginResOK ..) => true
  | _ => false

/-- A login request for the UID is answered with `eUMH_Game_Login_Res_OK`. -/
def Handled.accepts (uid : UID) (h : Handled) : Bool :=
  match h.input with
  | .msg _ (.gameLoginReq u _ _ _) => u == uid && h.actions.any Action.isGameLoginOK
  | _ => false

/-- A login request that carries the key of its player while that key is the
invalidated one, or the one the player was constructed with. -/
def StaleKey {C : Type} (o : Outside C) (m : Master C) : Input → Bool
  | .msg _ (.gameLoginReq uid _ _ playerAuthKey) => (m.getPlayerByUID uid).any fun p =>
      (m.heap.find p).any fun player => player.playerAuthKey == playerAuthKey &&
        (playerAuthKey == 0 || playerAuthKey == o.newPlayer.playerAuthKey)
  | _ => false

/-- Without a ticket that is `held`, the player of the UID has a key that was
never drawn. Nobody stands under a UID of another. -/
structure Spent {C : Type} (o : Outside C) (uid : UID) (held : Bool) (m : Master C) : Prop where
  bound : ∀ u p, m.mapUserUID.find u = some p → p < m.nextPtr
  own : ∀ u p player, m.mapUserUID.find u = some p → m.heap.find p = some player → player.uid = u
  spent : held = false → ∀ p player, m.mapUserUID.find uid = some p →
    m.heap.find p = some player →
    player.playerAuthKey = 0 ∨ player.playerAuthKey = o.newPlayer.playerAuthKey

namespace Spent
variable {C : Type} {o : Outside C} {cfg : CSvcConfig} {uid : UID} {held : Bool} {m m' : Master C}

theorem init (vecPlayerID : C) : Spent o uid held (.init vecPlayerID) := by
  constructor <;> simp [Master.init]

/-- The frame of the calls that register nobody and draw no key. -/
theorem frame (h : Spent o uid held m)
    (hfind : ∀ u p, m'.mapUserUID.find u = some p → m.mapUserUID.find u = some p)
    (hnext : m'.nextPtr = m.nextPtr)
    (hheap : ∀ p x', m'.heap.find p = some x' → ∃ x, m.heap.find p = some x ∧ x'.uid = x.uid ∧
      (x'.playerAuthKey = x.playerAuthKey ∨ x'.playerAuthKey = 0)) : Spent o uid held m' where
  bound u p hu := by
    rw [hnext]
    exact h.bound u p (hfind u p hu)
  own u p player hu hp := by
    obtain ⟨x, hx, huid, -⟩ := hheap p player hp
    rw [huid]
    exact h.own u p x (hfind u p hu) hx
  spent hheld p player hu hp := by
    obtain ⟨x, hx, -, hauth⟩ := hheap p player hp
    rcases hauth with hauth | hauth
    · rw [hauth]
      exact h.spent hheld p x (hfind uid p hu) hx
    · exact .inl hauth

theorem find_set_same {heap : StdMap Ptr CPlayer} {p : Ptr} {x y : CPlayer}
    (hp : heap.find p = some x) (huid : y.uid = x.uid)
    (hauth : y.playerAuthKey = x.playerAuthKey ∨ y.playerAuthKey = 0) (q : Ptr) (z' : CPlayer)
    (hq : (heap.set p y).find q = some z') : ∃ z, heap.find q = some z ∧ z'.uid = z.uid ∧
      (z'.playerAuthKey = z.playerAuthKey ∨ z'.playerAuthKey = 0) := by
  rw [StdMap.find_set] at hq
  split at hq
  · rename_i hqp
    obtain rfl := Option.some.inj hq
    exact ⟨x, hqp ▸ hp, huid, hauth⟩
  · exact ⟨z', hq, rfl, .inl rfl⟩

theorem logOutUpdate (h : Spent o uid held m) (p : Ptr) (player : CPlayer) :
    Spent o uid held (m.logOutUpdate o p player) := by
  refine h.frame (fun u q hu => ?_) rfl fun q x hx => ?_
  · simp only [Master.logOutUpdate] at hu
    split at hu
    · exact (StdMap.find_eraseKey_some hu).2
    · exact hu
  · exact ⟨x, (StdMap.find_eraseKey_some hx).2, rfl, .inl rfl⟩

theorem playerCheckIn (h : Spent o uid held m) {p : Ptr} (hm : m.playerCheckIn p = some m') :
    Spent o uid held m' := by
  obtain ⟨player, -, rfl⟩ := Option.map_eq_some_iff.mp hm
  exact h.frame (fun _ _ hu => hu) rfl fun q x hx => ⟨x, hx, rfl, .inl rfl⟩

theorem setSvrKey (h : Spent o uid held m) {key : LKEY} {p : Ptr}
    (hm : m.setSvrKey key p = some m') : Spent o uid held m' := by
  obtain ⟨player, hp, rfl⟩ := Master.setPlayer_cases hm
  exact h.frame (fun _ _ hu => hu) rfl (find_set_same hp rfl (.inl rfl))

theorem reserveMoveSession (h : Spent o uid held m) {now : Int} {p : Ptr} {r : Bool × Master C}
    (hm : m.reserveMoveSession o now p = some r) : Spent o uid held r.2 := by
  obtain ⟨player, hp, rfl⟩ := Option.map_eq_some_iff.mp hm
  exact h.frame (fun _ _ hu => hu) rfl (find_set_same hp rfl (.inl rfl))

theorem logIn (h : Spent o uid held m) (now : Int) (u : UID) (account : String) (keySvr : LKEY) :
    Spent o uid held (m.logIn o now u account keySvr).2 := by
  unfold Master.logIn
  split
  · exact h
  · split
    · exact h
    · refine ⟨fun v p hv => ?_, fun v p player hv hp => ?_, fun hheld p player hv hp => ?_⟩
      · rcases StdMap.find_insertNew_some hv with hv | ⟨-, rfl⟩
        · exact Nat.lt_succ_of_lt (h.bound v p hv)
        · exact Nat.lt_succ_self _
      · simp only [Master.logInUpdate, StdMap.find_set] at hp
        rcases StdMap.find_insertNew_some hv with hv | ⟨rfl, rfl⟩
        · rw [if_neg (Nat.ne_of_lt (h.bound v p hv))] at hp
          exact h.own v p player hv hp
        · rw [if_pos rfl] at hp
          exact Option.some.inj hp ▸ rfl
      · simp only [Master.logInUpdate, StdMap.find_set] at hp
        rcases StdMap.find_insertNew_some hv with hv | ⟨-, rfl⟩
        · rw [if_neg (Nat.ne_of_lt (h.bound uid p hv))] at hp
          exact h.spent hheld p player hv hp
        · rw [if_pos rfl] at hp
          exact .inr (Option.some.inj hp ▸ rfl)

theorem logOutForce (h : Spent o uid held m) {u : UID} (hm : m.logOutForce o u = some m') :
    Spent o uid held m' := by
  rcases Master.logOutFound_cases hm with rfl | ⟨p, player, -, -, rfl⟩
  · exact h
  · exact h.logOutUpdate p player

theorem logOut (h : Spent o uid held m) {u : UID} {sender : LKEY}
    {r : Bool × Master.LogoutInformation × Master C} (hm : m.logOut o u sender = some r) :
    Spent o uid held r.2.2 := by
  rcases Master.logOut_cases hm with hsame | ⟨p, player, -, -, hout⟩
  · rw [hsame]
    exact h
  · rw [hout]
    exact h.logOutUpdate p player

theorem expireSession (h : Spent o uid held m) {key : SessionKey}
    (hm : m.expireSession o key = some m') : Spent o uid held m' := by
  rcases Master.logOutFound_cases hm with rfl | ⟨p, player, -, -, rfl⟩
  · exact h
  · exact h.logOutUpdate p player

theorem tickSessions (h : Spent o uid held m) {timeCur : Int} {ss : List Session}
    (hm : m.tickSessions o timeCur ss = some m') : Spent o uid held m' :=
  Master.tickSessions_invariant (Spent o uid held) (fun _ p player h _ => h.logOutUpdate p player)
    (fun _ h => ⟨h.bound, h.own, h.spent⟩) hm h

theorem issue (h : Spent o uid held m) {u : UID} {p : Ptr} (hu : m.getPlayerByUID u = some p)
    {key : UInt64} (hm : m.setPlayerAuthKey key p = some m') :
    Spent o uid (held || u == uid) m' := by
  obtain ⟨player, hp, rfl⟩ := Master.setPlayer_cases hm
  refine ⟨h.bound, fun v q x hv hq => ?_, fun hheld q x hv hq => ?_⟩
  · rw [StdMap.find_set] at hq
    split at hq
    · rename_i hqp
      rw [← Option.some.inj hq]
      exact h.own v q player hv (hqp ▸ hp)
    · exact h.own v q x hv hq
  · obtain ⟨hheld, hne⟩ := Bool.or_eq_false_iff.mp hheld
    rw [StdMap.find_set] at hq
    split at hq
    · rename_i hqp
      have huid := h.own uid q player hv (hqp ▸ hp)
      rw [h.own u p player hu hp] at huid
      simp [huid] at hne
    · exact h.spent hheld q x hv hq

theorem take (h : Spent o uid held m) {u : UID} {p : Ptr} (hu : m.getPlayerByUID u = some p)
    (hm : m.setPlayerAuthKey 0 p = some m') : Spent o uid (held && u != uid) m' := by
  obtain ⟨player, hp, rfl⟩ := Master.setPlayer_cases hm
  have h' : Spent o uid held { m with heap := m.heap.set p { player with playerAuthKey := 0 } } :=
    h.frame (fun _ _ hu => hu) rfl (find_set_same hp rfl (.inr rfl))
  refine ⟨h'.bound, h'.own, fun hheld q x hv hq => ?_⟩
  rcases Bool.and_eq_false_iff.mp hheld with hheld | hne
  · exact h'.spent hheld q x hv hq
  · have huid : u = uid := by simpa using hne
    subst huid
    obtain rfl := Option.some.inj (hu.symm.trans hv)
    simp only [StdMap.find_set, ↓reduceIte, Option.some.injEq] at hq
    exact .inl (hq ▸ rfl)

theorem mono (h : Spent o uid held m) {more : Bool} (hle : held = true → more = true) :
    Spent o uid more m := by
  refine ⟨h.bound, h.own, fun hmore => h.spent ?_⟩
  by_contra hheld
  rw [hle (by simpa using hheld)] at hmore
  cases hmore

theorem step (h : Spent o uid held m) {e : Event}
    (hissue : e.op.issuesTo = some uid → held = true) (hm : m.step o e = some m') :
    Spent o uid held m' := by
  unfold Master.step at hm
  cases hop : e.op with
  | logIn u account keySvr =>
      simp only [hop] at hm
      exact Option.some.inj hm ▸ h.logIn ..
  | playerCheckIn u =>
      simp only [hop] at hm
      rcases Master.onPlayer_cases hm with ⟨-, rfl⟩ | ⟨p, -, hm⟩
      · exact h
      · exact h.playerCheckIn hm
  | reserveMoveSession u =>
      simp only [hop] at hm
      rcases Master.onPlayer_cases hm with ⟨-, rfl⟩ | ⟨p, -, hm⟩
      · exact h
      · obtain ⟨r, hr, rfl⟩ := Option.map_eq_some_iff.mp hm
        exact h.reserveMoveSession hr
  | logOut u sender =>
      simp only [hop] at hm
      obtain ⟨r, hr, rfl⟩ := Option.map_eq_some_iff.mp hm
      exact h.logOut hr
  | logOutForce u =>
      simp only [hop] at hm
      exact h.logOutForce hm
  | expireSession key =>
      simp only [hop] at hm
      exact h.expireSession hm
  | tickProcess =>
      simp only [hop] at hm
      exact h.tickSessions hm
  | setPlayerAuthKey u key =>
      simp only [hop] at hm
      rcases Master.onPlayer_cases hm with ⟨-, rfl⟩ | ⟨p, hp, hm⟩
      · exact h
      · by_cases hkey : key = 0
        · subst hkey
          exact (h.take hp hm).mono fun hheld => (Bool.and_eq_true_iff.mp hheld).1
        · apply (h.issue hp hm).mono
          intro hheld
          rcases Bool.or_eq_true_iff.mp hheld with hheld | hu
          · exact hheld
          · apply hissue
            rw [hop, Op.issuesTo, if_neg hkey, beq_iff_eq.mp hu]
  | setSvrKey u key =>
      simp only [hop] at hm
      rcases Master.onPlayer_cases hm with ⟨-, rfl⟩ | ⟨p, -, hm⟩
      · exact h
      · exact h.setSvrKey hm

theorem calls (h : Spent o uid held m) {now : Int} {actions : List Action}
    (hc : Calls o now actions m m') (hissue : Action.issue uid ∈ actions → held = true) :
    Spent o uid held m' :=
  hc.invariant (Spent o uid held)
    (fun _ _ _ h he hm => h.step (fun hu => hissue (he.2 uid hu)) hm) h

/-- A login request, unless it comes with a stale key: it is answered with OK
only while a ticket is held, and takes that ticket. -/
theorem gameLoginReq (h : Spent o uid held m) {pFrom : CVSock} {u : UID} {key keySvr : LKEY}
    {playerAuthKey : UInt64} {r : Answer C}
    (hm : m.gameLoginReq o cfg pFrom u key keySvr playerAuthKey = some r)
    (hstale : StaleKey o m (.msg pFrom (.gameLoginReq u key keySvr playerAuthKey)) = false) :
    Action.issue uid ∉ r.2.1 ∧
      (r.2.1.any Action.isGameLoginOK = true → u = uid → held = true) ∧
      Spent o uid (held && !(u == uid && r.2.1.any Action.isGameLoginOK)) r.2.2 := by
  obtain ⟨hsame, error, hactions⟩ | ⟨p, player, m₁, m₂, hp, hl, hkey, hset, hcheck, hrest⟩ :=
    Master.gameLoginReq_cases hm
  · rw [hsame, hactions]
    simpa [Action.isGameLoginOK] using h
  · have h₂ := (h.take hp hset).playerCheckIn hcheck
    have hheld : u = uid → held = true := by
      rintro rfl
      by_contra hfalse
      have hspent := h.spent (by simpa using hfalse) p player hp hl
      simp [StaleKey, hp, hl, ← hkey] at hstale
      exact hspent.elim hstale.1 hstale.2
    rcases hrest with rfl | ⟨keyCommunity, msg, hsvr, rfl, hactions⟩
    · refine ⟨by simp, by simp, h₂.mono ?_⟩
      intro hboth
      simpa using (Bool.and_eq_true_iff.mp hboth).1
    · rw [hactions]
      refine ⟨by simp, fun _ => hheld, ?_⟩
      simpa [Action.isGameLoginOK, bne] using h₂.setSvrKey hsvr

end Spent

section
variable {C : Type} {o : Outside C}

structure Ticketed (o : Outside C) (uid : UID) (s : Server C) : Prop where
  guarded : Guarded (Handled.issues uid) (Handled.accepts uid) s.log
  spent : Spent o uid (armed (Handled.issues uid) (Handled.accepts uid) s.log) s.master

theorem Ticketed.init (uid : UID) (vecPlayerID : C) (svcConfig : CSvcConfig) :
    Ticketed o uid (.init vecPlayerID svcConfig) :=
  ⟨.nil, .init vecPlayerID⟩

theorem Ticketed.quiet {uid : UID} {s s' : Server C} (h : Ticketed o uid s) {handled : Handled}
    (hlog : s'.log = s.log ++ [handled]) (hquiet : handled.accepts uid = false) {now : Int}
    (hcalls : Calls o now handled.actions s.master s'.master) : Ticketed o uid s' := by
  constructor
  · rw [hlog]
    exact h.guarded.snoc (by simp [hquiet])
  · rw [hlog, armed_snoc, hquiet]
    have hmore : Spent o uid (armed (Handled.issues uid) (Handled.accepts uid) s.log ||
        handled.issues uid) s.master :=
      h.spent.mono fun harmed => by rw [harmed, Bool.true_or]
    have hspent := hmore.calls hcalls fun hissue => by
      rw [Handled.issues, decide_eq_true hissue, Bool.or_true]
    cases hissue : handled.issues uid <;> simpa [hissue] using hspent

theorem Ticketed.login {uid : UID} {s : Server C} (h : Ticketed o uid s) {handled : Handled}
    (hissue : handled.issues uid = false)
    (hheld : handled.accepts uid = true →
      armed (Handled.issues uid) (Handled.accepts uid) s.log = true)
    {master : Master C} {svcConfig : CSvcConfig}
    (hspent : Spent o uid (armed (Handled.issues uid) (Handled.accepts uid) s.log &&
      !handled.accepts uid) master) :
    Ticketed o uid ⟨master, svcConfig, s.log ++ [handled]⟩ := by
  refine ⟨h.guarded.snoc hheld, ?_⟩
  rw [armed_snoc, hissue]
  cases haccept : handled.accepts uid <;> simpa [haccept] using hspent

theorem Ticketed.step {uid : UID} {s s' : Server C} (h : Ticketed o uid s) {a : Arrival}
    (ok : StaleKey o s.master a.input = false) (hs : s.step o a = some s') :
    Ticketed o uid s' := by
  obtain ⟨handled, hlog, hinput, hcalls⟩ := Server.step_calls hs
  cases hin : a.input with
  | tick => exact h.quiet hlog (by rw [Handled.accepts, hinput, hin]) hcalls
  | config svcConfig => exact h.quiet hlog (by rw [Handled.accepts, hinput, hin]) hcalls
  | msg pFrom request =>
      cases request with
      | gameLoginReq u key keySvr playerAuthKey =>
          rw [hin] at ok
          simp only [Server.step, hin] at hs
          obtain ⟨⟨answer, actions, master⟩, hm, rfl⟩ := Option.map_eq_some_iff.mp hs
          obtain ⟨hissue, hheld, hspent⟩ := h.spent.gameLoginReq hm ok
          refine h.login (by simpa [Handled.issues] using hissue) ?_ hspent
          intro haccept
          obtain ⟨hu, hany⟩ := Bool.and_eq_true_iff.mp haccept
          exact hheld hany (beq_iff_eq.mp hu)
      | _ => exact h.quiet hlog (by rw [Handled.accepts, hinput, hin]) hcalls

end

/-- What a ticket promises on a log: nothing is accepted before the first issue,
and between two issues at most one login request is. -/
structure AcceptedOnce (uid : UID) (log : List Handled) : Prop where
  none_before : ∀ before rest, log = before ++ rest → (∀ h ∈ before, h.issues uid = false) →
    ∀ h ∈ before, h.accepts uid = false
  at_most_one : ∀ before between rest, log = before ++ between ++ rest →
    (∀ h ∈ between, h.issues uid = false) → between.countP (Handled.accepts uid) ≤ 1

/-- In every run of the master in which no login request carries a stale key,
each ticket is accepted at most once. Such a run goes on as long as no input comes
to a deleted player. -/
theorem ticket_accepted_once {C : Type} (o : Outside C) (vecPlayerID : C) (svcConfig : CSvcConfig)
    (arrivals : List Arrival)
    (ok : Along (Server.step o) (fun s a => StaleKey o s.master a.input = false)
      (.init vecPlayerID svcConfig) arrivals) :
    (∀ s, run (Server.step o) (.init vecPlayerID svcConfig) arrivals = some s →
      ∀ uid, AcceptedOnce uid s.log) ∧
    (Along (Server.step o) (fun s a => s.Finds a.time a.input) (.init vecPlayerID svcConfig)
        arrivals →
      ∃ s, run (Server.step o) (.init vecPlayerID svcConfig) arrivals = some s) := by
  constructor
  · intro s hs uid
    have h : Ticketed o uid s :=
      run_invariant (Ticketed o uid) (fun _ _ _ h ok hs => h.step ok hs)
        (Ticketed.init uid vecPlayerID svcConfig) ok hs
    have hg := h.guarded
    constructor
    · intro before rest hlog hissue
      rw [hlog] at hg
      exact hg.none_before hissue
    · intro before between rest hlog hissue
      rw [hlog] at hg
      exact hg.at_most_one hissue
  · intro finds
    obtain ⟨s, hs, -⟩ := run_progress (fun _ : Server C => True)
      (fun s a _ h => by
        obtain ⟨s', hs⟩ := Server.Finds.step h o
        exact ⟨s', hs, trivial⟩) trivial finds
    exact ⟨s, hs⟩

def liveServers : CSvcConfig :=
  let game : ServerFields := ⟨6, some 60, 1, 0, "10.0.0.6", 5500, (· == .game)⟩
  ⟨[(5, ⟨⟨5, some 50, 1, 0, "10.0.0.5", 5400, (· == .community)⟩, [some game]⟩), (6, ⟨game, []⟩)],
    false⟩

def loginArrival : Arrival :=
  ⟨0, ⟨9, by decide⟩, .msg 40 (.dbQueryRes 5 100 (some ⟨.succeed, 7, "a", "10.0.0.1", 1⟩))⟩

def gameLoginArrival (playerAuthKey : UInt64) : Arrival :=
  ⟨1, ⟨9, by decide⟩, .msg 60 (.gameLoginReq 7 100 5 playerAuthKey)⟩

/-- A login, a request with a wrong key, and one with the ticket. -/
theorem ticket_accepted_once_login :
    ∃ s, run (Server.step .plain) (.init ∅ liveServers)
        [loginArrival, gameLoginArrival 8, gameLoginArrival 9] = some s ∧
      AcceptedOnce 7 s.log ∧ s.log.countP (Handled.accepts 7) = 1 := by
  obtain ⟨honce, hdefined⟩ := ticket_accepted_once .plain ∅ liveServers
    [loginArrival, gameLoginArrival 8, gameLoginArrival 9] (by decide)
  obtain ⟨s, hs⟩ := hdefined (by decide)
  refine ⟨s, hs, honce s hs 7, ?_⟩
  obtain rfl := Option.some.inj hs
  decide

/-- The key 0 that invalidates a ticket is accepted as a ticket. -/
theorem invalidated_ticket_accepted :
    ¬ ∀ (arrivals : List Arrival) (s : Server (StdMap LKEY Ptr)),
      run (Server.step .plain) (.init ∅ liveServers) arrivals = some s →
      ∀ uid, AcceptedOnce uid s.log := by
  intro h
  obtain ⟨s, hs, hissue, hcount⟩ : ∃ s, run (Server.step .plain) (.init ∅ liveServers)
      [loginArrival, gameLoginArrival 9, gameLoginArrival 0] = some s ∧
      (∀ x ∈ s.log.drop 1, x.issues 7 = false) ∧
      (s.log.drop 1).countP (Handled.accepts 7) = 2 := ⟨_, rfl, by decide, by decide⟩
  have hle := (h _ s hs 7).at_most_one (s.log.take 1) (s.log.drop 1) []
    (by rw [List.append_nil, List.take_append_drop]) hissue
  omega

end TestCodes.SvrMaster
