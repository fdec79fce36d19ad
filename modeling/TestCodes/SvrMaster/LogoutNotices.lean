import TestCodes.SvrMaster.Tickets

/-! Logout notices for the old session of a player, against the two messages with
which the new one arrives. While a ticket is open a notice removes nobody, and
after that only one from the server the player is on does. -/
namespace TestCodes.SvrMaster
open Machine

/-- The sockets of live servers have keys, and distinct ones distinct keys. -/
structure CSvcConfig.Keyed (cfg : CSvcConfig) (lkeyInvalid : LKEY) : Prop where
  valid : ∀ s, (cfg.findServerOf s).isSome →
    cfg.findServerKey s ≠ 0 ∧ cfg.findServerKey s ≠ lkeyInvalid
  distinct : ∀ s t, (cfg.findServerOf s).isSome → (cfg.findServerOf t).isSome →
    cfg.findServerKey s = cfg.findServerKey t → s = t

def Seats {C : Type} (m : Master C) (uid : UID) (p : Ptr) (player : CPlayer) : Prop :=
  m.getPlayerByUID uid = some p ∧ m.heap.find p = some player

/-- Nothing but notices for the UID, none of them from a connection that `done` holds of. -/
def Notices (uid : UID) (done : CVSock → Prop) (arrivals : List Arrival) : Prop :=
  ∀ a ∈ arrivals, ∃ pFrom key, a.input = .msg pFrom (.gameLogOut uid key) ∧ ¬ done pFrom

/-- The two logins of a player, from `game` and then from `community`, with notices
for its UID around them. A connection delivers in order: behind its own login a
server has no notice for the old session left. -/
structure Arriving (uid : UID) (game community : CVSock) (ticket : UInt64)
    (before between after : List Arrival) (gameLogin communityLogin : Arrival) : Prop where
  gameLogin : ∃ key keySvr, gameLogin.input = .msg game (.gameLoginReq uid key keySvr ticket)
  communityLogin : communityLogin.input = .msg community (.communityGameLogin uid)
  before : Notices uid (fun _ => False) before
  between : Notices uid (fun s => s = game) between
  after : Notices uid (fun s => s = game ∨ s = community) after

section
variable {C : Type} {o : Outside C} {cfg : CSvcConfig} {m m' : Master C} {uid : UID} {p : Ptr}
  {player : CPlayer}

theorem CSvcConfig.findServerKey_of_none {s : CVSock} (h : cfg.findServerOf s = none) :
    cfg.findServerKey s = 0 := by
  rw [findServerKey, h]

/-- A live server's key is nobody else's, that of unknown senders included. -/
theorem CSvcConfig.Keyed.ne {lkeyInvalid : LKEY} (h : cfg.Keyed lkeyInvalid) {s t : CVSock}
    (ht : (cfg.findServerOf t).isSome) (hne : s ≠ t) :
    cfg.findServerKey s ≠ cfg.findServerKey t := by
  cases hs : cfg.findServerOf s with
  | none =>
      rw [findServerKey_of_none hs]
      exact (h.valid t ht).1.symm
  | some server => exact fun he => hne (h.distinct s t (Option.isSome_of_eq_some hs) ht he)

theorem Seats.setPlayer (h : Seats m uid p player) (f : CPlayer → CPlayer) :
    ∃ m', Master.setPlayer f p m = some m' ∧ Seats m' uid p (f player) := by
  refine ⟨{ m with heap := m.heap.set p (f player) }, ?_, h.1, ?_⟩
  · rw [Master.setPlayer, h.2, Option.map_some]
  · simp only [StdMap.find_set, ↓reduceIte]

theorem Seats.of_issue {key : UInt64} (hp : m.getPlayerByUID uid = some p)
    (h : m.setPlayerAuthKey key p = some m') :
    ∃ player, Seats m' uid p player ∧ player.playerAuthKey = key := by
  obtain ⟨player, -, rfl⟩ := Master.setPlayer_cases h
  refine ⟨{ player with playerAuthKey := key }, ⟨hp, ?_⟩, rfl⟩
  simp only [StdMap.find_set, ↓reduceIte]

theorem issue_not_mem_logInOrKick {now : Int} {query : DBQueryLogin} {keySvr : LKEY}
    {r : List Action × Option Ptr × Master C}
    (h : m.logInOrKick o cfg now query keySvr = some r) : Action.issue uid ∉ r.1 := by
  unfold Master.logInOrKick at h
  split at h
  · obtain rfl := Option.some.inj h
    exact List.not_mem_nil
  · split at h
    · obtain ⟨⟨actions, m₁⟩, hshut, rfl⟩ := Option.map_eq_some_iff.mp h
      obtain ⟨m₂, -, hpair⟩ := Option.map_eq_some_iff.mp hshut
      obtain ⟨rfl, -⟩ := Prod.mk.inj hpair
      simp
    · obtain rfl := Option.some.inj h
      exact List.not_mem_nil

theorem issueLogin_issue {ticket : Ticket} {query : DBQueryLogin} {keyUsr : LKEY} {pSock : CVSock}
    {r : List Action × Master C}
    (h : m.issueLogin cfg ticket query keyUsr pSock p = some r) (hissue : Action.issue uid ∈ r.1) :
    uid = query.uid ∧ m.setPlayerAuthKey ticket p = some r.2 := by
  obtain ⟨m₁, hset, hsend⟩ := Option.bind_eq_some_iff.mp h
  obtain ⟨reader, -, rfl⟩ := Option.map_eq_some_iff.mp hsend
  refine ⟨?_, hset⟩
  rcases List.mem_cons.mp (List.mem_append.mp hissue |>.resolve_right (by simp)) with hhead | hsent
  · exact Action.issue.inj hhead
  · obtain ⟨sock, -, hsock⟩ := Option.map_eq_some_iff.mp (Option.mem_toList.mp hsent)
    cases hsock

theorem dbQueryRes_issue {now : Int} {ticket : Ticket} {pFrom : CVSock} {keySvr keyUsr : LKEY}
    {query : DBQueryLogin} {r : Answer C}
    (h : m.dbQueryRes o cfg now ticket pFrom keySvr keyUsr query = some r)
    (hissue : Action.issue uid ∈ r.2.1) :
    ∃ p player, Seats r.2.2 uid p player ∧ player.playerAuthKey = ticket := by
  unfold Master.dbQueryRes at h
  split at h
  · obtain rfl := Option.some.inj h
    cases hissue
  · split at h
    · obtain rfl := Option.some.inj h
      simp at hissue
    · obtain ⟨⟨kicked, pPlayer, m₁⟩, hkick, h⟩ := Option.bind_eq_some_iff.mp h
      have hkicked : Action.issue uid ∉ kicked := issue_not_mem_logInOrKick hkick
      cases pPlayer with
      | none =>
          obtain rfl := Option.some.inj h
          simp [hkicked] at hissue
      | some p =>
          obtain ⟨⟨sent, m₂⟩, hlogin, rfl⟩ := Option.map_eq_some_iff.mp h
          obtain ⟨rfl, hset⟩ :=
            issueLogin_issue hlogin ((List.mem_append.mp hissue).resolve_left hkicked)
          obtain ⟨-, hfind⟩ : Makes o now _ [] 1 m m₁ ∧ _ := Makes.logInOrKick hkick
          exact ⟨p, Seats.of_issue (hfind p rfl) hset⟩

theorem gameMoveCommunityReq_issue {now : Int} {ticket : Ticket} {pFrom : CVSock} {u : UID}
    {key keySvr : LKEY} {gidStage : ℕ} {communitySvrIdx : Int} {r : Answer C}
    (h : m.gameMoveCommunityReq o cfg now ticket pFrom u key keySvr gidStage communitySvrIdx =
      some r) (hissue : Action.issue uid ∈ r.2.1) :
    ∃ p player, Seats r.2.2 uid p player ∧ player.playerAuthKey = ticket := by
  unfold Master.gameMoveCommunityReq at h
  split at h
  · obtain rfl := Option.some.inj h
    cases hissue
  · rename_i p hp
    split at h
    · obtain rfl := Option.some.inj h
      cases hissue
    · obtain ⟨⟨reserved, m₁⟩, hreserve, h⟩ := Option.bind_eq_some_iff.mp h
      simp only at h
      split at h
      · obtain rfl := Option.some.inj h
        cases hissue
      · obtain ⟨m₂, hset, rfl⟩ := Option.map_eq_some_iff.mp h
        obtain rfl : uid = u := by simpa using hissue
        obtain ⟨-, hfind⟩ : Makes o now _ [] 1 m m₁ ∧ _ := Makes.reserveMoveSession hp hreserve
        exact ⟨p, Seats.of_issue hfind hset⟩

theorem handler_issue {now : Int} {ticket : Ticket} {pFrom : CVSock} {request : Request}
    {r : Answer C} (h : m.handler o cfg now ticket pFrom request = some r)
    (hissue : Action.issue uid ∈ r.2.1) :
    ∃ p player, Seats r.2.2 uid p player ∧ player.playerAuthKey = ticket := by
  cases request with
  | dbQueryRes keySvr keyUsr query =>
      cases query with
      | none =>
          obtain rfl := Option.some.inj h
          cases hissue
      | some query => exact dbQueryRes_issue h hissue
  | gameLogOut accountUID key =>
      obtain ⟨⟨found, info, m₁⟩, -, rfl⟩ := Option.map_eq_some_iff.mp h
      simp only at hissue
      repeat' split at hissue
      all_goals simp at hissue
  | allPlayerInfo players =>
      obtain rfl := Option.some.inj h
      unfold Master.allPlayerInfo at hissue
      split at hissue <;> cases hissue
  | gameLoginReq u key keySvr playerAuthKey =>
      obtain ⟨-, error, hactions⟩ | ⟨p, player, m₁, m₂, -, -, -, -, -, hrest⟩ :=
        Master.gameLoginReq_cases h
      · simp [hactions] at hissue
      · rcases hrest with rfl | ⟨keyCommunity, msg, -, -, hactions⟩
        · cases hissue
        · simp [hactions] at hissue
  | communityGameLogin accountUID =>
      simp only [Master.handler, Master.communityGameLogin] at h
      repeat' split at h
      all_goals first
        | obtain rfl := Option.some.inj h
          cases hissue
        | obtain ⟨m₁, -, rfl⟩ := Option.map_eq_some_iff.mp h
          cases hissue
  | shutdownUsr u =>
      obtain ⟨⟨sent, m₁⟩, hshut, rfl⟩ := Option.map_eq_some_iff.mp h
      obtain ⟨m₂, -, hpair⟩ := Option.map_eq_some_iff.mp hshut
      obtain ⟨rfl, -⟩ := Prod.mk.inj hpair
      simp at hissue
  | gameMoveCommunityReq u key keySvr gidStage communitySvrIdx =>
      exact gameMoveCommunityReq_issue h hissue

/-- A notice is dropped while a ticket is open, and from a server the player is not on. -/
theorem Seats.gameLogOut (h : Seats m uid p player) {pFrom : CVSock}
    (hsafe : player.playerAuthKey ≠ 0 ∨ cfg.findServerKey pFrom ≠ player.svrKey) (key : LKEY) :
    m.gameLogOut o cfg pFrom uid key = some (true, [], m) := by
  have hout : m.logOut o uid (cfg.findServerKey pFrom) =
      some (true, ⟨false, player.svrKey⟩, m) := by
    rw [Master.logOut, h.1]
    simp only [h.2, Option.bind_some]
    split
    · rfl
    · rename_i hsvr
      rw [if_pos (hsafe.resolve_right hsvr)]
  rw [Master.gameLogOut, hout]
  rfl

/-- The login with the ticket closes it and moves the player to its sender. -/
theorem Seats.gameLoginReq (h : Seats m uid p player) {pFrom : CVSock}
    (hvalid : cfg.findServerKey pFrom ≠ o.lkeyInvalid) (key keySvr : LKEY) :
    ∃ m', m.gameLoginReq o cfg pFrom uid key keySvr player.playerAuthKey = some (true,
        [.send pFrom (.gameLoginResOK key keySvr player.accountName player.uid)], m') ∧
      Seats m' uid p { player with playerAuthKey := 0, svrKey := cfg.findServerKey pFrom } := by
  obtain ⟨m₁, hset, h₁⟩ := h.setPlayer fun player => { player with playerAuthKey := 0 }
  have h₂ : Seats (m₁.playerCheckInUpdate { player with playerAuthKey := 0 }) uid p
      { player with playerAuthKey := 0 } := h₁
  obtain ⟨m₃, hsvr, h₃⟩ := h₂.setPlayer fun player =>
    { player with svrKey := cfg.findServerKey pFrom }
  have hcheck : m₁.playerCheckIn p =
      some (m₁.playerCheckInUpdate { player with playerAuthKey := 0 }) := by
    rw [Master.playerCheckIn, h₁.2, Option.map_some]
  refine ⟨m₃, ?_, h₃⟩
  simp only [Master.gameLoginReq, h.1, h.2, Option.bind_some, ne_eq, not_true_eq_false,
    ↓reduceIte, Master.setPlayerAuthKey, hset, hcheck, hvalid, Master.setSvrKey, hsvr,
    Option.map_some]

theorem Seats.communityGameLogin (h : Seats m uid p player) {pFrom : CVSock}
    (hvalid : cfg.findServerKey pFrom ≠ o.lkeyInvalid) :
    ∃ m', m.communityGameLogin o cfg pFrom uid = some (true, [], m') ∧
      Seats m' uid p { player with svrKey := cfg.findServerKey pFrom } := by
  obtain ⟨m', hsvr, h'⟩ := h.setPlayer fun player =>
    { player with svrKey := cfg.findServerKey pFrom }
  refine ⟨m', ?_, h'⟩
  simp only [Master.communityGameLogin, h.1, if_neg hvalid, Master.setSvrKey, hsvr,
    Option.map_some]

theorem Server.step_msg {s : Server C} {a : Arrival} {pFrom : CVSock} {request : Request}
    (hin : a.input = .msg pFrom request) {r : Answer C}
    (h : s.master.handler o s.svcConfig a.time a.ticket pFrom request = some r) :
    ∃ t, s.step o a = some t ∧ t.master = r.2.2 ∧ t.svcConfig = s.svcConfig := by
  refine ⟨⟨r.2.2, s.svcConfig, s.log ++ [⟨a.input, r.2.1⟩]⟩, ?_, rfl, rfl⟩
  simp only [Server.step, hin, h, Option.map_some]

theorem Server.step_issue {s₀ s : Server C} {a : Arrival} (h : s₀.step o a = some s)
    {handled : Handled} (hlog : s.log = s₀.log ++ [handled])
    (hissue : handled.issues uid = true) :
    ∃ p player, Seats s.master uid p player ∧ player.playerAuthKey = a.ticket := by
  cases Server.step_cases h with
  | handled _ hr =>
      obtain rfl := List.singleton_inj.mp (List.append_cancel_left hlog)
      exact handler_issue hr (of_decide_eq_true hissue)
  | ticked | configured =>
      obtain rfl := List.singleton_inj.mp (List.append_cancel_left hlog)
      cases of_decide_eq_true hissue

/-- Notices that are all dropped leave the players as they are. -/
theorem Notices.through {done : CVSock → Prop} {notices : List Arrival}
    (h : Notices uid done notices) (seat : Seats m uid p player)
    (hsafe : ∀ pFrom, ¬ done pFrom →
      player.playerAuthKey ≠ 0 ∨ cfg.findServerKey pFrom ≠ player.svrKey)
    {s : Server C} (hm : s.master = m) (hcfg : s.svcConfig = cfg) :
    Throughout (Server.step o) (fun t => t.master = m ∧ t.svcConfig = cfg) s notices := by
  induction notices generalizing s with
  | nil => exact .nil ⟨hm, hcfg⟩
  | cons a notices ih =>
      obtain ⟨pFrom, key, hin, hdone⟩ := h a List.mem_cons_self
      subst hm hcfg
      obtain ⟨t, hstep, hm, hcfg⟩ :=
        Server.step_msg (o := o) hin (seat.gameLogOut (hsafe pFrom hdone) key)
      refine .cons ⟨rfl, rfl⟩ hstep (ih ?_ hm hcfg)
      exact fun b hb => h b (List.mem_cons_of_mem a hb)

end

/-- After a ticket was issued, no order of arrival lets a notice for the old
session remove the player; it ends on the community server with its ticket used. -/
theorem stale_logouts_harmless {C : Type} (o : Outside C) (s₀ s : Server C) (a : Arrival)
    (hstep : s₀.step o a = some s) (uid : UID) (handled : Handled)
    (hlog : s.log = s₀.log ++ [handled]) (hissue : handled.issues uid = true)
    (keyed : s.svcConfig.Keyed o.lkeyInvalid) (game community : CVSock)
    (hgame : (s.svcConfig.findServerOf game).isSome)
    (hcommunity : (s.svcConfig.findServerOf community).isSome)
    (before between after : List Arrival) (gameLogin communityLogin : Arrival)
    (h : Arriving uid game community a.ticket before between after gameLogin communityLogin) :
    ∃ p, Throughout (Server.step o) (fun t => ∃ player, Seats t.master uid p player) s
        (before ++ gameLogin :: (between ++ communityLogin :: after)) ∧
      ∃ t player, run (Server.step o) s
          (before ++ gameLogin :: (between ++ communityLogin :: after)) = some t ∧
        Seats t.master uid p player ∧ player.svrKey = s.svcConfig.findServerKey community ∧
        player.playerAuthKey = 0 := by
  obtain ⟨p, player, seat, hkey⟩ := Server.step_issue hstep hlog hissue
  obtain ⟨key, keySvr, hlogin⟩ := h.gameLogin
  have hopen : player.playerAuthKey ≠ 0 := by
    rw [hkey]
    exact a.ticket.2
  -- the ticket is open: no notice counts
  have first := h.before.through (o := o) seat (fun _ _ => .inl hopen) rfl rfl
  obtain ⟨t₁, hrun₁, hm₁, hcfg₁⟩ := first.last
  rw [← hcfg₁] at keyed hgame hcommunity ⊢
  obtain ⟨m₂, hgameLogin, seat₂⟩ := seat.gameLoginReq (keyed.valid game hgame).2 key keySvr
  rw [hkey, ← hm₁] at hgameLogin
  obtain ⟨s₂, hstep₂, hm₂, hcfg₂⟩ := Server.step_msg hlogin hgameLogin
  -- the player is on the game server, which has no notice left
  have second := h.between.through (o := o) seat₂
    (fun s hs => .inr (keyed.ne hgame hs)) hm₂ hcfg₂
  obtain ⟨t₂, hrun₂, hm₃, hcfg₃⟩ := second.last
  rw [← hcfg₃] at keyed hcommunity
  obtain ⟨m₄, hcommunityLogin, seat₄⟩ :=
    seat₂.communityGameLogin (keyed.valid community hcommunity).2
  rw [← hm₃] at hcommunityLogin
  obtain ⟨s₄, hstep₄, hm₄, hcfg₄⟩ := Server.step_msg h.communityLogin hcommunityLogin
  -- the player is on the community server, which has none left either
  have third := h.after.through (o := o) seat₄
    (fun s hs => .inr (keyed.ne hcommunity fun he => hs (.inr he))) hm₄ hcfg₄
  obtain ⟨t₃, hrun₃, hm₅, hcfg₅⟩ := third.last
  have kept : ∀ {m : Master C} {cfg : CSvcConfig} {player : CPlayer}, Seats m uid p player →
      ∀ t : Server C, t.master = m ∧ t.svcConfig = cfg → ∃ player, Seats t.master uid p player :=
    fun hseat t ht => ⟨_, ht.1 ▸ hseat⟩
  refine ⟨p, ?_, t₃, _, ?_, hm₅ ▸ seat₄, by rw [hcfg₃], rfl⟩
  · refine (first.mono (kept seat)).append hrun₁ (.cons (kept seat t₁ ⟨hm₁, hcfg₁⟩) hstep₂ ?_)
    refine (second.mono (kept seat₂)).append hrun₂ (.cons (kept seat₂ t₂ ⟨hm₃, hcfg₃⟩) hstep₄ ?_)
    exact third.mono (kept seat₄)
  · rw [run_append, hrun₁, Option.bind_some, run_cons, hstep₂, Option.bind_some, run_append, hrun₂,
      Option.bind_some, run_cons, hstep₄, Option.bind_some, hrun₃]

theorem liveServers_keyed : liveServers.Keyed 0 := by
  have live : ∀ s, (liveServers.findServerOf s).isSome → s = 50 ∨ s = 60 := by
    intro s hs
    simp only [liveServers, CSvcConfig.findServerOf, List.map_cons, List.map_nil,
      List.find?_cons, List.find?_nil] at hs
    grind
  constructor
  · intro s hs
    rcases live s hs with rfl | rfl <;> decide
  · intro s t hs ht
    rcases live s hs with rfl | rfl <;> obtain rfl | rfl := live t ht <;> decide

def noticeArrival (pFrom : CVSock) : Arrival := ⟨2, ⟨1, by decide⟩, .msg pFrom (.gameLogOut 7 100)⟩

def communityLoginArrival : Arrival := ⟨3, ⟨1, by decide⟩, .msg 50 (.communityGameLogin 7)⟩

/-- Notices from both servers before the logins, from the community server in
between, and from a third connection behind them. -/
theorem stale_logouts_harmless_login :
    ∃ s p, run (Server.step .plain) (.init ∅ liveServers) [loginArrival] = some s ∧
      Throughout (Server.step .plain) (fun t => ∃ player, Seats t.master 7 p player) s
        ([noticeArrival 60, noticeArrival 50] ++ gameLoginArrival 9 ::
          ([noticeArrival 50] ++ communityLoginArrival :: [noticeArrival 70])) := by
  obtain ⟨s, hs⟩ : ∃ s, (Server.init ∅ liveServers).step .plain loginArrival = some s := ⟨_, rfl⟩
  obtain ⟨handled, hlog, hissue⟩ : ∃ handled,
      s.log = (Server.init (∅ : StdMap LKEY Ptr) liveServers).log ++ [handled] ∧
        handled.issues 7 = true := by
    obtain rfl := Option.some.inj hs
    exact ⟨_, rfl, rfl⟩
  have hcfg : s.svcConfig = liveServers := by
    obtain rfl := Option.some.inj hs
    rfl
  obtain ⟨p, hkept, -⟩ := stale_logouts_harmless .plain (.init ∅ liveServers) s loginArrival hs 7
    handled hlog hissue (hcfg ▸ liveServers_keyed) 60 50 (by rw [hcfg]; decide)
    (by rw [hcfg]; decide) [noticeArrival 60, noticeArrival 50] [noticeArrival 50]
    [noticeArrival 70] (gameLoginArrival 9) communityLoginArrival
    ⟨⟨_, _, rfl⟩, rfl, by simp [Notices, noticeArrival], by simp [Notices, noticeArrival],
      by simp [Notices, noticeArrival]⟩
  exact ⟨s, p, by rw [run_cons, hs]; rfl, hkept⟩

end TestCodes.SvrMaster
