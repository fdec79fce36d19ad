import TestCodes.Lib.Machine
import TestCodes.SvrMaster.PlayerManager

/-! The session map against the players and the wait list. A player has at most
the entry under its current key, unless `ReserveMoveSession` leaves the entry
under an older one behind. -/
namespace TestCodes.SvrMaster
open Machine

/-- Every entry leads to a player that is there, under its current key, and the
key waits exactly once. -/
def SessionIndex {C : Type} (m : Master C) : Prop :=
  ∀ key p, m.mapUserSession.find key = some p →
    ∃ player, m.heap.find p = some player ∧ player.sessionKey = key ∧
      m.validator.waitingKeys.count key = 1

section
variable {C : Type} {o : Outside C} {m m' : Master C}

def Master.issuesKey (m : Master C) (e : Event) : Bool :=
  (m.sessionCall e).any fun call => call.2.isSome

/-- Whether the call gives a new key to a player that still has an entry under
its last one. -/
def Master.leavesEntry (m : Master C) : Op → Bool
  | .reserveMoveSession uid => (m.getPlayerByUID uid).any fun p =>
      (m.heap.find p).any fun player => m.mapUserSession.find player.sessionKey == some p
  | _ => false

/-- No entry is left behind, and no key is issued that is still waiting. -/
def Conforms (m : Master C) (e : Event) : Prop :=
  m.leavesEntry e.op = false ∧
    (m.issuesKey e = true → m.validator.nextKey ∉ m.validator.waitingKeys)

instance (m : Master C) (e : Event) : Decidable (Conforms m e) :=
  inferInstanceAs (Decidable (_ ∧ _))

structure Sessions (m : Master C) : Prop where
  entry : ∀ key p, m.mapUserSession.find key = some p →
    ∃ player, m.heap.find p = some player ∧ player.sessionKey = key ∧
      key ∈ m.validator.waitingKeys
  nodup : m.validator.waitingKeys.Nodup
  fresh : ∀ p, m.nextPtr ≤ p → m.heap.find p = none

theorem Sessions.init (vecPlayerID : C) : Sessions (Master.init vecPlayerID) := by
  refine ⟨?_, List.nodup_nil, fun _ _ => rfl⟩
  simp [Master.init]

theorem Sessions.index (h : Sessions m) : SessionIndex m := by
  intro key p hp
  obtain ⟨player, hl, hk, hmem⟩ := h.entry key p hp
  exact ⟨player, hl, hk, List.count_eq_one_of_mem h.nodup hmem⟩

structure Issues (o : Outside C) (now : Int) (p : Ptr) (m m' : Master C) : Prop where
  validator : m'.validator = (m.validator.pushSession o.authKeyExpireTimePeriod now).2
  session : m'.mapUserSession = m.mapUserSession.insertNew m.validator.nextKey p
  heap : ∃ player, player.sessionKey = m.validator.nextKey ∧ m'.heap = m.heap.set p player

theorem Issues.logIn (o : Outside C) (now : Int) (uid : UID) (account : String) (keySvr : LKEY)
    (m : Master C) : Issues o now m.nextPtr m (m.logInUpdate o now uid account keySvr) :=
  ⟨rfl, rfl, m.newPlayer o uid account keySvr, rfl, rfl⟩

theorem Issues.reserve (o : Outside C) (now : Int) (p : Ptr) (player : CPlayer) (m : Master C) :
    Issues o now p m (m.reserveMoveSessionUpdate o now p player) :=
  ⟨rfl, rfl, { player with sessionKey := m.validator.nextKey }, rfl, rfl⟩

theorem Sessions.issue (h : Sessions m) {now : Int} {p : Ptr} (hi : Issues o now p m m')
    (hold : ∀ key, m.mapUserSession.find key ≠ some p)
    (hk : m.validator.nextKey ∉ m.validator.waitingKeys)
    (fresh : ∀ q, m'.nextPtr ≤ q → m'.heap.find q = none) : Sessions m' where
  entry key q hq := by
    obtain ⟨player, hkey, hheap⟩ := hi.heap
    rw [hi.session] at hq
    rw [hi.validator, m.validator.waitingKeys_pushSession, hheap, StdMap.find_set, List.mem_append,
      List.mem_singleton]
    rcases StdMap.find_insertNew_some hq with hfind | ⟨rfl, rfl⟩
    · obtain ⟨other, ho, hkey', hmem⟩ := h.entry key q hfind
      have hqp : q ≠ p := by
        rintro rfl
        exact hold key hfind
      exact ⟨other, by rw [if_neg hqp, ho], hkey', .inl hmem⟩
    · exact ⟨player, if_pos rfl, hkey, .inr rfl⟩
  nodup := by
    rw [hi.validator, m.validator.waitingKeys_pushSession, List.nodup_append]
    refine ⟨h.nodup, List.nodup_singleton _, ?_⟩
    rintro a ha b hb rfl
    exact hk (List.mem_singleton.mp hb ▸ ha)
  fresh := fresh

theorem Sessions.logIn (h : Sessions m) (now : Int) (uid : UID) (account : String)
    (keySvr : LKEY) (hk : m.validator.nextKey ∉ m.validator.waitingKeys) :
    Sessions (m.logInUpdate o now uid account keySvr) := by
  refine h.issue (.logIn o now uid account keySvr m) (fun key hkey => ?_) hk (fun p hp => ?_)
  · obtain ⟨player, hl, -⟩ := h.entry key _ hkey
    exact StdMap.ne_of_find hl (h.fresh _ le_rfl) rfl
  · have hlt : m.nextPtr < p := hp
    simp only [Master.logInUpdate, StdMap.find_set]
    rw [if_neg (Nat.ne_of_gt hlt)]
    exact h.fresh p (Nat.le_of_lt hlt)

theorem Sessions.reserve (h : Sessions m) (now : Int) {p : Ptr} {player : CPlayer}
    (hl : m.heap.find p = some player) (hold : m.mapUserSession.find player.sessionKey ≠ some p)
    (hk : m.validator.nextKey ∉ m.validator.waitingKeys) :
    Sessions (m.reserveMoveSessionUpdate o now p player) := by
  refine h.issue (.reserve o now p player m) (fun key hkey => ?_) hk (fun q hq => ?_)
  · obtain ⟨other, ho, rfl, -⟩ := h.entry key p hkey
    rw [hl] at ho
    exact hold (Option.some.inj ho ▸ hkey)
  · have hnone := h.fresh q hq
    have hne := (StdMap.ne_of_find hl hnone).symm
    simp only [Master.reserveMoveSessionUpdate, StdMap.find_set, if_neg hne, hnone]

theorem Sessions.checkIn (h : Sessions m) (player : CPlayer) :
    Sessions (m.playerCheckInUpdate player) where
  entry key p hp := by
    obtain ⟨hne, hp⟩ := StdMap.find_eraseKey_some hp
    obtain ⟨other, hl, hk, hmem⟩ := h.entry key p hp
    refine ⟨other, hl, hk, ?_⟩
    simp only [Master.playerCheckInUpdate, CSessionValidator.waitingKeys_eraseSession]
    exact (List.mem_erase_of_ne hne).mpr hmem
  nodup := by
    simp only [Master.playerCheckInUpdate, CSessionValidator.waitingKeys_eraseSession]
    exact h.nodup.erase _
  fresh := h.fresh

theorem Sessions.logOut (h : Sessions m) {p : Ptr} {player : CPlayer}
    (hl : m.heap.find p = some player) : Sessions (m.logOutUpdate o p player) where
  entry key q hq := by
    obtain ⟨hne, hq⟩ := StdMap.find_eraseKey_some hq
    obtain ⟨other, ho, hk, hmem⟩ := h.entry key q hq
    have hqp : q ≠ p := by
      rintro rfl
      rw [hl] at ho
      exact hne (Option.some.inj ho ▸ hk.symm)
    refine ⟨other, ?_, hk, hmem⟩
    simp only [Master.logOutUpdate, StdMap.find_eraseKey, if_neg hqp, ho]
  nodup := h.nodup
  fresh q hq := by
    have hnone := h.fresh q hq
    simp only [Master.logOutUpdate, StdMap.find_eraseKey, hnone, ite_self]

theorem Sessions.change (h : Sessions m) {p : Ptr} {player : CPlayer}
    (hl : m.heap.find p = some player) (playerAuthKey : UInt64) (svrKey : LKEY) :
    Sessions { m with heap := m.heap.set p { player with playerAuthKey, svrKey } } where
  entry key q hq := by
    obtain ⟨other, ho, hk, hmem⟩ := h.entry key q hq
    by_cases hqp : q = p
    · subst hqp
      rw [hl] at ho
      obtain rfl := Option.some.inj ho
      exact ⟨{ player with playerAuthKey, svrKey }, by rw [StdMap.find_set, if_pos rfl], hk, hmem⟩
    · exact ⟨other, by rw [StdMap.find_set, if_neg hqp, ho], hk, hmem⟩
  nodup := h.nodup
  fresh q hq := by
    have hnone := h.fresh q hq
    rw [StdMap.find_set, if_neg (StdMap.ne_of_find hl hnone).symm, hnone]

/-! A tick removes the entries of the due sessions and the players they lead to. -/

structure Ticked (due rest : List Session) (m m' : Master C) : Prop where
  waits : m'.validator.listWaitSessions = rest
  session : ∀ key, m'.mapUserSession.find key =
    if key ∈ due.map Session.sessionKey then none else m.mapUserSession.find key
  heap : ∀ p player, m'.heap.find p = some player ↔ m.heap.find p = some player ∧
    ∀ s ∈ due, m.mapUserSession.find s.sessionKey ≠ some p

theorem Sessions.popFront (h : Sessions m) {s : Session} {rest : List Session}
    (hw : m.validator.listWaitSessions = s :: rest)
    (hs : m.mapUserSession.find s.sessionKey = none) : Sessions m.popFront where
  entry key p hp := by
    obtain ⟨player, hl, hk, hmem⟩ := h.entry key p hp
    refine ⟨player, hl, hk, ?_⟩
    rw [CSessionValidator.waitingKeys, hw, List.map_cons] at hmem
    simp only [Master.popFront, CSessionValidator.waitingKeys, hw, List.tail_cons]
    exact (List.mem_cons.mp hmem).resolve_left (StdMap.ne_of_find hp hs)
  nodup := by
    have hnodup := h.nodup
    rw [CSessionValidator.waitingKeys, hw, List.map_cons, List.nodup_cons] at hnodup
    simp only [Master.popFront, CSessionValidator.waitingKeys, hw, List.tail_cons]
    exact hnodup.2
  fresh := h.fresh

theorem Sessions.expire (h : Sessions m) (o : Outside C) {s : Session} {rest : List Session}
    (hw : m.validator.listWaitSessions = s :: rest) :
    ∃ m₁, m.expireSession o s.sessionKey = some m₁ ∧ Sessions m₁.popFront ∧
      Ticked [s] rest m m₁.popFront := by
  unfold Master.expireSession
  cases hs : m.mapUserSession.find s.sessionKey with
  | none =>
      refine ⟨m, rfl, h.popFront hw hs, by simp only [Master.popFront, hw, List.tail_cons], ?_, ?_⟩
      · intro key
        by_cases hk : key = s.sessionKey <;> simp [Master.popFront, hk, hs]
      · simp [Master.popFront, hs]
  | some p =>
      obtain ⟨player, hl, hk, -⟩ := h.entry _ p hs
      have hnone : (m.logOutUpdate o p player).mapUserSession.find s.sessionKey = none := by
        simp only [Master.logOutUpdate, StdMap.find_eraseKey, hk, ↓reduceIte]
      refine ⟨m.logOutUpdate o p player, by simp only [Master.logOutPlayer, hl, Option.map_some],
        (h.logOut hl).popFront hw hnone, ?_, ?_, ?_⟩
      · simp only [Master.popFront, Master.logOutUpdate, hw, List.tail_cons]
      · intro key
        simp only [Master.popFront, Master.logOutUpdate, StdMap.find_eraseKey, hk, List.map_cons,
          List.map_nil, List.mem_singleton]
      · intro q other
        simp only [Master.popFront, Master.logOutUpdate, StdMap.find_eraseKey,
          List.forall_mem_singleton, hs, ne_eq, Option.some.injEq]
        by_cases hq : q = p
        · simp [hq]
        · simp [hq, Ne.symm (Ne.intro hq)]

theorem Ticked.trans {s : Session} {due rest rest' : List Session} {m₁ : Master C}
    (h : Ticked [s] rest' m m₁) (h' : Ticked due rest m₁ m') :
    Ticked (s :: due) rest m m' where
  waits := h'.waits
  session key := by
    rw [h'.session, h.session]
    simp only [List.map_cons, List.map_nil, List.mem_cons]
    by_cases hd : key ∈ due.map Session.sessionKey <;> simp [hd]
  heap p player := by
    rw [h'.heap, h.heap, List.forall_mem_singleton, List.forall_mem_cons, and_assoc]
    refine and_congr_right fun _ => and_congr_right fun hs => forall₂_congr fun d _ => ?_
    rw [h.session]
    simp only [List.map_cons, List.map_nil, List.mem_singleton]
    by_cases hd : d.sessionKey = s.sessionKey
    · simp [hd, hs]
    · simp [hd]

theorem Sessions.tick (o : Outside C) (timeCur : Int) {l : List Session} {m : Master C}
    (h : Sessions m) (hw : m.validator.listWaitSessions = l) :
    ∃ m', m.tickSessions o timeCur l = some m' ∧ Sessions m' ∧
      Ticked (l.takeWhile (·.timeExpiration ≤ timeCur)) (l.dropWhile (·.timeExpiration ≤ timeCur))
        m m' := by
  induction l generalizing m with
  | nil => exact ⟨m, rfl, h, hw, by simp, by simp⟩
  | cons s rest ih =>
      unfold Master.tickSessions
      by_cases hs : s.timeExpiration ≤ timeCur
      · obtain ⟨m₁, hexp, h₁, hone⟩ := h.expire o hw
        obtain ⟨m', hrun, h', hrest⟩ := ih h₁ hone.waits
        rw [if_neg (by omega), hexp, Option.bind_some]
        refine ⟨m', hrun, h', ?_⟩
        rw [List.takeWhile_cons_of_pos (by simpa using hs),
          List.dropWhile_cons_of_pos (by simpa using hs)]
        exact hone.trans hrest
      · rw [if_pos (by omega), List.takeWhile_cons_of_neg (by simpa using hs),
          List.dropWhile_cons_of_neg (by simpa using hs)]
        exact ⟨m, rfl, h, hw, by simp, by simp⟩

theorem Sessions.step (h : Sessions m) {e : Event} (ok : Conforms m e)
    (hm : m.step o e = some m') : Sessions m' := by
  obtain ⟨hleaves, hissue⟩ := ok
  by_cases he : e.op = .tickProcess
  · obtain ⟨m₁, hrun, h₁, -⟩ := h.tick o e.time rfl
    rw [Master.step, he] at hm
    obtain rfl := Option.some.inj (hm.symm.trans hrun)
    exact h₁
  · cases Master.step_cases he hm with
    | same => exact h
    | loggedIn _ hcall _ _ =>
        exact h.logIn e.time _ _ _ (hissue (by simp [Master.issuesKey, hcall]))
    | checkedIn => exact h.checkIn _
    | reserved hop hcall hp hl =>
        rw [hop] at hleaves
        refine h.reserve e.time hl ?_ (hissue (by simp [Master.issuesKey, hcall]))
        simpa [Master.leavesEntry, hp, hl] using hleaves
    | loggedOut _ _ hl => exact h.logOut hl
    | changed playerAuthKey svrKey _ hl => exact h.change hl playerAuthKey svrKey

/-! Where a step comes to a deleted player. -/

/-- The players that the call would log out, a tick those of the sessions that are due. -/
def Master.leavers (m : Master C) (e : Event) : List Ptr :=
  match e.op with
  | .tickProcess => (m.validator.listWaitSessions.takeWhile (·.timeExpiration ≤ e.time)).filterMap
      fun s => m.mapUserSession.find s.sessionKey
  | op => (m.leaver op).toList

/-- The call removes no player under `UID_INVALID`, whose entry in the UID map would stay. -/
def Spares (o : Outside C) (m : Master C) (e : Event) : Prop :=
  ∀ p ∈ m.leavers e, ∀ player ∈ m.heap.find p, player.uid ≠ o.uidInvalid

instance (o : Outside C) (m : Master C) (e : Event) : Decidable (Spares o m e) :=
  inferInstanceAs (Decidable (∀ p ∈ m.leavers e, ∀ player ∈ m.heap.find p, _))

theorem Master.mem_leavers_tick {e : Event} (he : e.op = .tickProcess) {p : Ptr} :
    p ∈ m.leavers e ↔ ∃ s ∈ m.validator.listWaitSessions.takeWhile (·.timeExpiration ≤ e.time),
      m.mapUserSession.find s.sessionKey = some p := by
  simp only [leavers, he, List.mem_filterMap]

theorem Master.mem_leavers {e : Event} (he : e.op ≠ .tickProcess) {p : Ptr} :
    p ∈ m.leavers e ↔ m.leaver e.op = some p := by
  unfold leavers
  split
  · rename_i htick
    exact absurd htick he
  · exact Option.mem_toList

/-- The UIDs lead to players that are there, each under its own. -/
def Named (m : Master C) : Prop :=
  ∀ uid p, m.mapUserUID.find uid = some p → ∃ player, m.heap.find p = some player ∧
    player.uid = uid

theorem Named.init (vecPlayerID : C) : Named (Master.init vecPlayerID) := by
  simp [Named, Master.init]

theorem Named.change (h : Named m) {p : Ptr} {player player' : CPlayer}
    (hl : m.heap.find p = some player) (hheap : m'.heap = m.heap.set p player')
    (huid : player'.uid = player.uid) (hfind : m'.mapUserUID = m.mapUserUID) : Named m' := by
  intro uid q hq
  rw [hfind] at hq
  obtain ⟨other, ho, hu⟩ := h uid q hq
  rw [hheap, StdMap.find_set]
  by_cases hqp : q = p
  · subst hqp
    rw [hl] at ho
    obtain rfl := Option.some.inj ho
    exact ⟨player', if_pos rfl, huid.trans hu⟩
  · exact ⟨other, by rw [if_neg hqp, ho], hu⟩

theorem Named.logIn (h : Named m) (hs : Sessions m) (now : Int) (uid : UID) (account : String)
    (keySvr : LKEY) : Named (m.logInUpdate o now uid account keySvr) := by
  intro u p hp
  simp only [Master.logInUpdate, StdMap.find_set] at hp ⊢
  rcases StdMap.find_insertNew_some hp with hp | ⟨rfl, rfl⟩
  · obtain ⟨player, hl, hu⟩ := h u p hp
    exact ⟨player, by rw [if_neg (StdMap.ne_of_find hl (hs.fresh _ le_rfl)), hl], hu⟩
  · exact ⟨_, if_pos rfl, rfl⟩

theorem Named.logOut (h : Named m) {p : Ptr} {player : CPlayer}
    (hl : m.heap.find p = some player) (hspared : player.uid ≠ o.uidInvalid) :
    Named (m.logOutUpdate o p player) := by
  intro uid q hq
  simp only [Master.logOutUpdate, if_pos hspared] at hq
  obtain ⟨hne, hq⟩ := StdMap.find_eraseKey_some hq
  obtain ⟨other, ho, hu⟩ := h uid q hq
  have hqp : q ≠ p := by
    rintro rfl
    rw [hl] at ho
    exact hne (Option.some.inj ho ▸ hu.symm)
  exact ⟨other, by simp only [Master.logOutUpdate, StdMap.find_eraseKey, if_neg hqp, ho], hu⟩

theorem Named.tick (h : Named m) {timeCur : Int} {sessions : List Session}
    (hspared : ∀ s ∈ sessions.takeWhile (·.timeExpiration ≤ timeCur), ∀ p player,
      m.mapUserSession.find s.sessionKey = some p → m.heap.find p = some player →
        player.uid ≠ o.uidInvalid)
    (hm : m.tickSessions o timeCur sessions = some m') : Named m' := by
  induction sessions generalizing m with
  | nil => exact Option.some.inj hm ▸ h
  | cons current rest ih =>
      unfold Master.tickSessions at hm
      split at hm
      · exact Option.some.inj hm ▸ h
      · rename_i hdue
        rw [List.takeWhile_cons_of_pos (by simpa using hdue)] at hspared
        obtain ⟨hcurrent, hrest⟩ := List.forall_mem_cons.mp hspared
        obtain ⟨m₁, hexp, hm⟩ := Option.bind_eq_some_iff.mp hm
        rcases Master.logOutFound_cases hexp with rfl | ⟨p, player, hp, hl, rfl⟩
        · exact ih (m := m.popFront) h hrest hm
        · have hleaves := hcurrent p player hp hl
          refine ih (m := (m.logOutUpdate o p player).popFront) (h.logOut hl hleaves) ?_ hm
          -- the entries and the players that are left are some of those before
          intro s hs q other hq ho
          exact hrest s hs q other (StdMap.find_eraseKey_some hq).2
            (StdMap.find_eraseKey_some ho).2

theorem Named.step (h : Named m) (hs : Sessions m) {e : Event} (hspares : Spares o m e)
    (hm : m.step o e = some m') : Named m' := by
  by_cases he : e.op = .tickProcess
  · rw [Master.step, he] at hm
    refine h.tick (fun s hs p player hp hl => ?_) hm
    exact hspares p ((Master.mem_leavers_tick he).mpr ⟨s, hs, hp⟩) player hl
  · cases Master.step_cases he hm with
    | same => exact h
    | loggedIn => exact h.logIn hs e.time _ _ _
    | checkedIn => exact h
    | reserved _ _ _ hl => exact h.change hl rfl rfl rfl
    | loggedOut _ hp hl => exact h.logOut hl (hspares _ ((Master.mem_leavers he).mpr hp) _ hl)
    | changed _ _ _ hl => exact h.change hl rfl rfl rfl

/-- Where both maps are in order a step comes to no deleted player. -/
theorem Sessions.defined (h : Sessions m) (hnamed : Named m) (o : Outside C) (e : Event) :
    ∃ m', m.step o e = some m' := by
  by_cases he : e.op = .tickProcess
  · obtain ⟨m', hrun, -⟩ := h.tick o e.time rfl
    exact ⟨m', by rw [Master.step, he]; exact hrun⟩
  · have hreaches : m.Reaches := by
      constructor
      · intro uid p hp
        obtain ⟨player, hl, -⟩ := hnamed uid p hp
        exact ⟨player, hl⟩
      · intro key p hp
        obtain ⟨player, hl, -⟩ := h.entry key p hp
        exact ⟨player, hl⟩
    exact hreaches.step o he

end

/-- From the empty manager on, while no move leaves an entry behind and no key
is issued that still waits, the session map is in order in every state reached,
and no tick there comes to a deleted player. No other step does either, while no
player under `UID_INVALID` is removed. -/
theorem session_index {C : Type} (o : Outside C) (vecPlayerID : C) (events : List Event)
    (ok : Along (Master.step o) Conforms (.init vecPlayerID) events) :
    (∀ m, run (Master.step o) (.init vecPlayerID) events = some m →
      SessionIndex m ∧ ∀ timeCur, ∃ m', m.tickProcess o timeCur = some m') ∧
    (Along (Master.step o) (Spares o) (.init vecPlayerID) events →
      ∃ m, run (Master.step o) (.init vecPlayerID) events = some m) := by
  constructor
  · intro m hm
    have h : Sessions m :=
      run_invariant Sessions (fun _ _ _ h ok hm => h.step ok hm) (Sessions.init vecPlayerID) ok hm
    refine ⟨h.index, fun timeCur => ?_⟩
    obtain ⟨m', hrun, -⟩ := h.tick o timeCur rfl
    exact ⟨m', hrun⟩
  · intro spares
    obtain ⟨m, hm, -⟩ := run_progress (fun m => Sessions m ∧ Named m)
      (fun m e ⟨h, hnamed⟩ ⟨hconforms, hspares⟩ => by
        obtain ⟨m', hm⟩ := h.defined hnamed o e
        exact ⟨m', hm, h.step hconforms hm, hnamed.step h hspares hm⟩)
      ⟨.init vecPlayerID, .init vecPlayerID⟩ (ok.and spares)
    exact ⟨m, hm⟩

/-- A player that checks in before it moves and logs out before it checks in
again, beside one that lets its key expire. -/
theorem session_index_moves :
    ∃ m, run (Master.step .plain) (.init ∅)
      [⟨0, .logIn 7 "a" 1⟩, ⟨1, .playerCheckIn 7⟩, ⟨2, .reserveMoveSession 7⟩,
        ⟨3, .logIn 8 "b" 1⟩, ⟨4, .logOutForce 7⟩, ⟨63, .tickProcess⟩] = some m ∧
      SessionIndex m ∧ ∀ timeCur, ∃ m', m.tickProcess .plain timeCur = some m' := by
  obtain ⟨hindex, hdefined⟩ := session_index .plain ∅
    [⟨0, .logIn 7 "a" 1⟩, ⟨1, .playerCheckIn 7⟩, ⟨2, .reserveMoveSession 7⟩,
      ⟨3, .logIn 8 "b" 1⟩, ⟨4, .logOutForce 7⟩, ⟨63, .tickProcess⟩] (by decide)
  obtain ⟨m, hm⟩ := hdefined (by decide)
  exact ⟨m, hm, hindex m hm⟩

/-- A move before the check-in leaves the entry under the login key behind. It
leads to the deleted player after a logout, where the next tick finds it. -/
theorem move_leaves_entry :
    (¬ ∀ (events : List Event) (m : Master (StdMap LKEY Ptr)),
      run (Master.step .plain) (.init ∅) events = some m → SessionIndex m) ∧
    run (Master.step .plain) (.init ∅)
      [⟨0, .logIn 7 "a" 1⟩, ⟨1, .reserveMoveSession 7⟩, ⟨2, .logOutForce 7⟩,
        ⟨60, .tickProcess⟩] = none := by
  refine ⟨fun h => ?_, by decide⟩
  obtain ⟨player, hl, hk, -⟩ :=
    h [⟨0, .logIn 7 "a" 1⟩, ⟨1, .reserveMoveSession 7⟩] _ rfl 1 0 (by decide)
  obtain rfl := Option.some.inj hl
  exact absurd hk (by decide)

end TestCodes.SvrMaster
