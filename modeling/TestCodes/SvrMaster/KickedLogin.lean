import TestCodes.SvrMaster.MsgHandler
import TestCodes.SvrMaster.PlayerIndex

/-! The login behind a kick. A login is refused for its UID or for its account, and the
kick looks for the UID only: that is enough while the database pairs the two. -/
namespace TestCodes.SvrMaster
open Machine

/-- The accounts of the database, one for each UID and one UID for each. -/
structure Accounts where
  pairs : UID → String → Prop
  account_unique : ∀ {uid a b}, pairs uid a → pairs uid b → a = b
  uid_unique : ∀ {u v account}, pairs u account → pairs v account → u = v

structure Accounts.Valid {C : Type} (db : Accounts) (o : Outside C) (uid : UID)
    (account : String) : Prop where
  pair : db.pairs uid account
  valid : uid ≠ o.uidInvalid

/-- The calls that log players in and out, the logins with results of the database. -/
def Accounts.Admits {C : Type} (db : Accounts) (o : Outside C) : Op → Prop
  | .logIn uid account _ => db.Valid o uid account
  | op => op.indexing

/-- The indexes agree, and every player is one of the database. -/
structure Paired {C : Type} (db : Accounts) (o : Outside C) (m : Master C) : Prop where
  indexed : Indexed m
  player : ∀ p player, m.heap.find p = some player → db.Valid o player.uid player.accountName

section
variable {C : Type} {db : Accounts} {o : Outside C} {m m' : Master C} {uid : UID}
  {account : String}

theorem Accounts.Admits.indexing {op : Op} (h : db.Admits o op) : op.indexing := by
  cases op with
  | logIn => rfl
  | _ => exact h

theorem Paired.init (vecPlayerID : C) : Paired db o (Master.init vecPlayerID) :=
  ⟨.init vecPlayerID, nofun⟩

theorem Paired.logIn (h : Paired db o m) (now : Int) (keySvr : LKEY) (hv : db.Valid o uid account)
    (hu : m.getPlayerByUID uid = none) (ha : m.getPlayerByAccount account = none) :
    Paired db o (m.logInUpdate o now uid account keySvr) where
  indexed := h.indexed.logIn now keySvr hu ha
  player p player hp := by
    simp only [Master.logInUpdate, StdMap.find_set] at hp
    split at hp
    · obtain rfl := Option.some.inj hp
      exact hv
    · exact h.player p player hp

theorem Paired.logOut (h : Paired db o m) {p : Ptr} {player : CPlayer}
    (hl : m.heap.find p = some player) : Paired db o (m.logOutUpdate o p player) where
  indexed := h.indexed.logOut hl (h.player p player hl).valid
  player q other hq := h.player q other (StdMap.find_eraseKey_some hq).2

theorem Paired.change (h : Paired db o m) {p : Ptr} {player : CPlayer}
    (hl : m.heap.find p = some player) (playerAuthKey : UInt64) (svrKey : LKEY) :
    Paired db o { m with heap := m.heap.set p { player with playerAuthKey, svrKey } } where
  indexed := h.indexed.change hl playerAuthKey svrKey
  player q other hq := by
    rw [StdMap.find_set] at hq
    split at hq
    · obtain rfl := Option.some.inj hq
      exact h.player p player hl
    · exact h.player q other hq

theorem Paired.step (h : Paired db o m) {e : Event} (ok : db.Admits o e.op) :
    ∃ m', m.step o e = some m' ∧ Paired db o m' := by
  have hop := ok.indexing
  have he : e.op ≠ .tickProcess := by
    intro htick
    rw [htick] at hop
    cases hop
  obtain ⟨m', hm⟩ := h.indexed.reaches.step o he
  refine ⟨m', hm, ?_⟩
  cases Master.step_cases he hm with
  | same => exact h
  | loggedIn hlogin _ hu ha =>
      rw [hlogin] at ok
      exact h.logIn e.time _ ok hu ha
  | checkedIn hcheck =>
      rw [hcheck] at hop
      cases hop
  | reserved hmove =>
      rw [hmove] at hop
      cases hop
  | loggedOut _ _ hl => exact h.logOut hl
  | changed playerAuthKey svrKey _ hl => exact h.change hl playerAuthKey svrKey

/-- A login is refused for one player only, which the kick finds by its UID. -/
theorem Paired.refused (h : Paired db o m) (hv : db.Valid o uid account) {now : Int}
    {keySvr : LKEY} (refused : (m.logIn o now uid account keySvr).1 = none) :
    ∃ p player, m.getPlayerByUID uid = some p ∧ m.heap.find p = some player ∧
      player.uid = uid ∧ player.accountName = account := by
  have hfound : (∃ p, m.getPlayerByUID uid = some p) ∨
      ∃ p, m.getPlayerByAccount account = some p := by
    by_contra hnone
    obtain ⟨hu, ha⟩ := not_or.mp hnone
    rw [← Option.isSome_iff_exists] at hu ha
    rw [Master.logIn, if_neg hu, if_neg ha] at refused
    cases refused
  rcases hfound with ⟨p, hp⟩ | ⟨p, hp⟩
  · obtain ⟨player, hl, rfl⟩ := (h.indexed.uid uid p).mp hp
    exact ⟨p, player, hp, hl, rfl, db.account_unique (h.player p player hl).pair hv.pair⟩
  · obtain ⟨player, hl, rfl⟩ := (h.indexed.account account p).mp hp
    obtain rfl := db.uid_unique (h.player p player hl).pair hv.pair
    exact ⟨p, player, (h.indexed.uid _ p).mpr ⟨player, hl, rfl⟩, hl, rfl, rfl⟩

/-- The kick logs that player out, and the UID and the account are free. -/
theorem Paired.kick (h : Paired db o m) (hv : db.Valid o uid account) {now : Int}
    {keySvr : LKEY} (refused : (m.logIn o now uid account keySvr).1 = none) :
    ∃ m₁, m.shutdownUser o uid = some ([.broadcastShutdown uid], m₁) ∧
      m₁.getPlayerByUID uid = none ∧ m₁.getPlayerByAccount account = none ∧
      m₁.nPlayerCount = m.nPlayerCount - 1 := by
  obtain ⟨p, player, hp, hl, rfl, rfl⟩ := h.refused hv refused
  refine ⟨m.logOutUpdate o p player, ?_, ?_, ?_, rfl⟩
  · simp only [Master.shutdownUser, Master.logOutForce, hp, Master.logOutPlayer, hl,
      Option.map_some]
  · simp only [Master.getPlayerByUID, Master.logOutUpdate, if_pos hv.valid, StdMap.find_eraseKey,
      ↓reduceIte]
  · simp only [Master.getPlayerByAccount, Master.logOutUpdate, StdMap.find_eraseKey, ↓reduceIte]

/-- A duplicate login under a kick, as the handler of a login result sees it: the player
that is there makes room, and "System Critical Fail" is not reached. -/
structure MakesRoom (o : Outside C) (cfg : CSvcConfig) (now : Int) (query : DBQueryLogin)
    (keySvr : LKEY) (m : Master C) : Prop where
  kicked : (m.logIn o now query.uid query.userID keySvr).1 = none → ∃ m₁ p m₂,
    m.shutdownUser o query.uid = some ([.broadcastShutdown query.uid], m₁) ∧
    m₁.logIn o now query.uid query.userID keySvr = (some p, m₂) ∧
    m.logInOrKick o cfg now query keySvr = some ([.broadcastShutdown query.uid], some p, m₂) ∧
    m₂.nPlayerCount = m.nPlayerCount
  unfailing : ∀ r, m.logInOrKick o cfg now query keySvr = some r → r.2.1 ≠ none
  unrefused : ∀ ticket pFrom keyUsr r,
    m.dbQueryRes o cfg now ticket pFrom keySvr keyUsr query = some r →
    ∀ pSock key, Action.send pSock (.loginResError key .dbDuplicationUserID) ∉ r.2.1

theorem logInOrKick_actions {cfg : CSvcConfig} {now : Int} {query : DBQueryLogin} {keySvr : LKEY}
    {r : List Action × Option Ptr × Master C} (h : m.logInOrKick o cfg now query keySvr = some r)
    {action : Action} (ha : action ∈ r.1) : action = .broadcastShutdown query.uid := by
  unfold Master.logInOrKick at h
  split at h
  · obtain rfl := Option.some.inj h
    cases ha
  · split at h
    · obtain ⟨⟨kicked, m₁⟩, hshut, rfl⟩ := Option.map_eq_some_iff.mp h
      obtain ⟨m₂, -, hpair⟩ := Option.map_eq_some_iff.mp hshut
      rw [← (Prod.mk.inj hpair).1] at ha
      exact List.mem_singleton.mp ha
    · obtain rfl := Option.some.inj h
      cases ha

theorem issueLogin_actions {cfg : CSvcConfig} {ticket : Ticket} {query : DBQueryLogin}
    {keyUsr : LKEY} {pSock : CVSock} {p : Ptr} {r : List Action × Master C}
    (h : m.issueLogin cfg ticket query keyUsr pSock p = some r) (sock : CVSock) (key : LKEY)
    (error : ErrorCode) : Action.send sock (.loginResError key error) ∉ r.1 := by
  obtain ⟨m₁, -, h⟩ := Option.bind_eq_some_iff.mp h
  obtain ⟨player, -, rfl⟩ := Option.map_eq_some_iff.mp h
  cases (cfg.findLowUserGameServer query.recentlyWorldID).bind fun server => server.pSock <;> simp

theorem logInOrKick_accepted {cfg : CSvcConfig} {now : Int} {query : DBQueryLogin} {keySvr : LKEY}
    {p : Ptr} (accepted : (m.logIn o now query.uid query.userID keySvr).1 = some p) :
    m.logInOrKick o cfg now query keySvr =
      some ([], some p, (m.logIn o now query.uid query.userID keySvr).2) := by
  have hpair : m.logIn o now query.uid query.userID keySvr = (some p, _) := Prod.ext accepted rfl
  rw [Master.logInOrKick, hpair]

theorem logInOrKick_refused {cfg : CSvcConfig} (kick : cfg.bKickByDupeLogin = true) {now : Int}
    {query : DBQueryLogin} {keySvr : LKEY}
    (refused : (m.logIn o now query.uid query.userID keySvr).1 = none) :
    m.logInOrKick o cfg now query keySvr =
      (m.shutdownUser o query.uid).map fun (actions, m) =>
        (actions, m.logIn o now query.uid query.userID keySvr) := by
  have hpair : m.logIn o now query.uid query.userID keySvr = (none, m) :=
    Prod.ext refused (Master.logIn_refused (Prod.ext refused rfl))
  rw [Master.logInOrKick, hpair]
  exact if_pos kick

theorem Paired.kicked (h : Paired db o m) {cfg : CSvcConfig} (kick : cfg.bKickByDupeLogin = true)
    {query : DBQueryLogin} (hv : db.Valid o query.uid query.userID) {now : Int} {keySvr : LKEY}
    (refused : (m.logIn o now query.uid query.userID keySvr).1 = none) : ∃ m₁ p m₂,
    m.shutdownUser o query.uid = some ([.broadcastShutdown query.uid], m₁) ∧
    m₁.logIn o now query.uid query.userID keySvr = (some p, m₂) ∧
    m.logInOrKick o cfg now query keySvr = some ([.broadcastShutdown query.uid], some p, m₂) ∧
    m₂.nPlayerCount = m.nPlayerCount := by
  obtain ⟨m₁, hshut, hu, ha, hcount⟩ := h.kick hv refused
  have hsecond : m₁.logIn o now query.uid query.userID keySvr =
      (some m₁.nextPtr, m₁.logInUpdate o now query.uid query.userID keySvr) := by
    rw [Master.logIn, hu, ha]
    rfl
  refine ⟨m₁, _, _, hshut, hsecond, ?_, ?_⟩
  · rw [logInOrKick_refused kick refused, hshut, Option.map_some, ← hsecond]
  · show m₁.nPlayerCount + 1 = m.nPlayerCount
    omega

theorem Paired.unfailing (h : Paired db o m) {cfg : CSvcConfig}
    (kick : cfg.bKickByDupeLogin = true) {query : DBQueryLogin}
    (hv : db.Valid o query.uid query.userID) {now : Int} {keySvr : LKEY}
    {r : List Action × Option Ptr × Master C}
    (hr : m.logInOrKick o cfg now query keySvr = some r) : r.2.1 ≠ none := by
  cases hfirst : (m.logIn o now query.uid query.userID keySvr).1 with
  | none =>
      obtain ⟨m₁, p, m₂, -, -, hkick, -⟩ := h.kicked kick hv hfirst
      obtain rfl := Option.some.inj (hr.symm.trans hkick)
      exact Option.some_ne_none p
  | some p =>
      obtain rfl := Option.some.inj (hr.symm.trans (logInOrKick_accepted hfirst))
      exact Option.some_ne_none p

theorem Paired.unrefused (h : Paired db o m) {cfg : CSvcConfig}
    (kick : cfg.bKickByDupeLogin = true) {query : DBQueryLogin}
    (hv : db.Valid o query.uid query.userID) {now : Int} {ticket : Ticket} {pFrom : CVSock}
    {keySvr keyUsr : LKEY} {r : Answer C}
    (hr : m.dbQueryRes o cfg now ticket pFrom keySvr keyUsr query = some r) (pSock : CVSock)
    (key : LKEY) : Action.send pSock (.loginResError key .dbDuplicationUserID) ∉ r.2.1 := by
  unfold Master.dbQueryRes at hr
  split at hr
  · obtain rfl := Option.some.inj hr
    exact List.not_mem_nil
  · split at hr
    · obtain rfl := Option.some.inj hr
      simp
    · obtain ⟨⟨kicked, pPlayer, m₁⟩, hlogin, hr⟩ := Option.bind_eq_some_iff.mp hr
      cases pPlayer with
      | none => exact absurd rfl (h.unfailing kick hv hlogin)
      | some p =>
          obtain ⟨⟨actions, m₂⟩, hissue, rfl⟩ := Option.map_eq_some_iff.mp hr
          intro hmem
          rcases List.mem_append.mp hmem with hmem | hmem
          · cases logInOrKick_actions hlogin hmem
          · exact issueLogin_actions hissue pSock key _ hmem

end

/-- From the empty manager on, by logins with results of the database and by logouts:
no call comes to a deleted player, and every duplicate login makes room. -/
theorem kick_makes_room {C : Type} (db : Accounts) (o : Outside C) (vecPlayerID : C)
    (events : List Event) (admitted : ∀ e ∈ events, db.Admits o e.op) (cfg : CSvcConfig)
    (kick : cfg.bKickByDupeLogin = true) :
    ∃ m, run (Master.step o) (.init vecPlayerID) events = some m ∧
      ∀ now query keySvr, db.Valid o query.uid query.userID →
        MakesRoom o cfg now query keySvr m := by
  have halong : Along (Master.step o) (fun _ e => db.Admits o e.op) (.init vecPlayerID) events :=
    .of_forall (fun e he _ => admitted e he) _
  obtain ⟨m, hrun, h⟩ :=
    run_progress (Paired db o) (fun _ _ h ok => h.step ok) (Paired.init vecPlayerID) halong
  exact ⟨m, hrun, fun now query keySvr hv => ⟨h.kicked kick hv, fun _ => h.unfailing kick hv,
    fun _ _ _ _ => h.unrefused kick hv⟩⟩

def twoAccounts : Accounts where
  pairs uid account := (uid, account) = (7, "a") ∨ (uid, account) = (8, "b")
  account_unique := by
    rintro uid a b (h | h) (h' | h') <;> simp_all
  uid_unique := by
    rintro u v account (h | h) (h' | h') <;> simp_all

/-- One player is in, with a ticket that keeps it from logging out; one was kicked. -/
theorem kick_makes_room_twice : ∃ m, run (Master.step .plain) (.init ∅)
    [⟨0, .logIn 7 "a" 1⟩, ⟨1, .setPlayerAuthKey 7 9⟩, ⟨2, .logOut 7 1⟩, ⟨3, .logIn 8 "b" 1⟩,
      ⟨4, .logOutForce 8⟩] = some m ∧
    ∀ now query keySvr, twoAccounts.Valid .plain query.uid query.userID →
      MakesRoom .plain ⟨[], true⟩ now query keySvr m := by
  refine kick_makes_room twoAccounts .plain ∅ _ ?_ ⟨[], true⟩ rfl
  simp only [List.forall_mem_cons, Accounts.Admits]
  exact ⟨⟨.inl rfl, by decide⟩, rfl, rfl, ⟨.inr rfl, by decide⟩, rfl, nofun⟩

end TestCodes.SvrMaster
