import TestCodes.Lib.Machine
import TestCodes.SvrMaster.PlayerManager

/-! The UID map, the account map and the count against the players that are
there. `LogOut` keeps them in agreement except for a player under
`UID_INVALID`, whose entry it leaves behind. -/
namespace TestCodes.SvrMaster
open Machine

/-- Both maps hold exactly the players that are not deleted, each under its own
UID and account, and the count is their number. -/
structure PlayerIndex {C : Type} (m : Master C) : Prop where
  uid : ∀ u p, m.mapUserUID.find u = some p ↔ ∃ player, m.heap.find p = some player ∧ player.uid = u
  account : ∀ a p, m.mapUserAccount.find a = some p ↔
    ∃ player, m.heap.find p = some player ∧ player.accountName = a
  distinct : ∀ p q player other, m.heap.find p = some player → m.heap.find q = some other →
    player.uid = other.uid ∨ player.accountName = other.accountName → p = q
  count : m.nPlayerCount = m.heap.size

/-- The calls that log players in and out, and those that leave the indexes alone. -/
def Op.indexing : Op → Bool
  | .playerCheckIn _ | .reserveMoveSession _ | .tickProcess => false
  | _ => true

/-- A logout is admitted if it does not remove a player under `UID_INVALID`. -/
def Admitted {C : Type} (o : Outside C) (m : Master C) (e : Event) : Prop :=
  e.op.indexing ∧ ∀ p ∈ m.leaver e.op, ∀ player ∈ m.heap.find p, player.uid ≠ o.uidInvalid

instance {C : Type} (o : Outside C) (m : Master C) (e : Event) : Decidable (Admitted o m e) :=
  inferInstanceAs (Decidable (_ ∧ _))

section
variable {C : Type} {o : Outside C} {m : Master C}

/-- What carries `PlayerIndex` through a call: the session map leads to players
that are there as well, and the next address is unused. -/
structure Indexed (m : Master C) : Prop where
  uid : StdMap.Indexes CPlayer.uid m.mapUserUID m.heap
  account : StdMap.Indexes CPlayer.accountName m.mapUserAccount m.heap
  session : ∀ key p, m.mapUserSession.find key = some p →
    ∃ player, m.heap.find p = some player ∧ player.sessionKey = key
  count : m.nPlayerCount = m.heap.size
  fresh : ∀ p, m.nextPtr ≤ p → m.heap.find p = none

theorem Indexed.init (vecPlayerID : C) : Indexed (Master.init vecPlayerID) := by
  refine ⟨?_, ?_, ?_, rfl, fun _ _ => rfl⟩ <;> simp [StdMap.Indexes, Master.init]

theorem Indexed.playerIndex (h : Indexed m) : PlayerIndex m where
  uid := h.uid
  account := h.account
  distinct p q player other hp hq hn := by
    rcases hn with hn | hn
    · exact h.uid.distinct hp hq hn
    · exact h.account.distinct hp hq hn
  count := h.count

theorem Indexed.reaches (h : Indexed m) : m.Reaches where
  uid uid p hp := by
    obtain ⟨player, hl, -⟩ := (h.uid uid p).mp hp
    exact ⟨player, hl⟩
  session key p hp := by
    obtain ⟨player, hl, -⟩ := h.session key p hp
    exact ⟨player, hl⟩

theorem Indexed.logIn (h : Indexed m) (now : Int) {uid : UID} {account : String} (keySvr : LKEY)
    (hu : m.getPlayerByUID uid = none) (ha : m.getPlayerByAccount account = none) :
    Indexed (m.logInUpdate o now uid account keySvr) where
  uid := h.uid.insert (m.newPlayer o uid account keySvr) (h.fresh _ le_rfl) hu
  account := h.account.insert (m.newPlayer o uid account keySvr) (h.fresh _ le_rfl) ha
  session key p hp := by
    have hnew := h.fresh _ le_rfl
    simp only [Master.logInUpdate, StdMap.find_set] at hp ⊢
    rcases StdMap.find_insertNew_some hp with hp | ⟨rfl, rfl⟩
    · obtain ⟨player, hl, hk⟩ := h.session key p hp
      exact ⟨player, by rw [if_neg (StdMap.ne_of_find hl hnew), hl], hk⟩
    · exact ⟨_, if_pos rfl, rfl⟩
  count := by
    have hsize := StdMap.size_set_of_none (h.fresh _ le_rfl)
    have hcount := h.count
    simp only [Master.logInUpdate, hsize, hcount]
    omega
  fresh p hp := by
    have hlt : m.nextPtr < p := hp
    simp only [Master.logInUpdate, StdMap.find_set]
    rw [if_neg (Nat.ne_of_gt hlt)]
    exact h.fresh p (Nat.le_of_lt hlt)

theorem Indexed.logOut (h : Indexed m) {p : Ptr} {player : CPlayer}
    (hl : m.heap.find p = some player) (hu : player.uid ≠ o.uidInvalid) :
    Indexed (m.logOutUpdate o p player) where
  uid := by
    have he := h.uid.erase hl
    simp only [Master.logOutUpdate, if_pos hu]
    exact he
  account := h.account.erase hl
  session key q hq := by
    obtain ⟨hne, hq⟩ := StdMap.find_eraseKey_some hq
    obtain ⟨other, ho, hk⟩ := h.session key q hq
    have hpq : q ≠ p := by
      rintro rfl
      rw [hl] at ho
      exact hne (Option.some.inj ho ▸ hk.symm)
    exact ⟨other, by simp only [Master.logOutUpdate, StdMap.find_eraseKey, if_neg hpq, ho], hk⟩
  count := by
    have hsize := StdMap.size_eraseKey hl
    have hcount := h.count
    simp only [Master.logOutUpdate]
    omega
  fresh q hq := by
    have hnone := h.fresh q hq
    simp only [Master.logOutUpdate, StdMap.find_eraseKey, hnone, ite_self]

theorem Indexed.change (h : Indexed m) {p : Ptr} {player : CPlayer}
    (hl : m.heap.find p = some player) (playerAuthKey : UInt64) (svrKey : LKEY) :
    Indexed { m with heap := m.heap.set p { player with playerAuthKey, svrKey } } where
  uid := h.uid.change hl rfl
  account := h.account.change hl rfl
  session key q hq := by
    obtain ⟨other, ho, hk⟩ := h.session key q hq
    by_cases hqp : q = p
    · subst hqp
      rw [hl] at ho
      obtain rfl := Option.some.inj ho
      exact ⟨{ player with playerAuthKey, svrKey }, by rw [StdMap.find_set, if_pos rfl], hk⟩
    · exact ⟨other, by rw [StdMap.find_set, if_neg hqp, ho], hk⟩
  count := by
    rw [StdMap.size_set_of_some hl]
    exact h.count
  fresh q hq := by
    have hnone := h.fresh q hq
    rw [StdMap.find_set, if_neg (StdMap.ne_of_find hl hnone).symm, hnone]

theorem Indexed.step (h : Indexed m) {e : Event} (ok : Admitted o m e) :
    ∃ m', m.step o e = some m' ∧ Indexed m' := by
  obtain ⟨hop, hleaver⟩ := ok
  have he : e.op ≠ .tickProcess := by
    intro htick
    rw [htick] at hop
    cases hop
  obtain ⟨m', hm⟩ := h.reaches.step o he
  refine ⟨m', hm, ?_⟩
  cases Master.step_cases he hm with
  | same => exact h
  | loggedIn _ _ hu ha => exact h.logIn e.time _ hu ha
  | checkedIn hcheck =>
      rw [hcheck] at hop
      cases hop
  | reserved hmove =>
      rw [hmove] at hop
      cases hop
  | loggedOut _ hp hl => exact h.logOut hl (hleaver _ hp _ hl)
  | changed playerAuthKey svrKey _ hl => exact h.change hl playerAuthKey svrKey

end

/-- From the empty manager on, while no logout removes a player under
`UID_INVALID`, no call comes to a deleted player and the indexes agree. -/
theorem player_index_agrees {C : Type} (o : Outside C) (vecPlayerID : C) (events : List Event)
    (ok : Along (Master.step o) (Admitted o) (.init vecPlayerID) events) :
    ∃ m, run (Master.step o) (.init vecPlayerID) events = some m ∧ PlayerIndex m := by
  obtain ⟨m, hrun, h⟩ :=
    run_progress Indexed (fun _ _ h ok => h.step ok) (Indexed.init vecPlayerID) ok
  exact ⟨m, hrun, h.playerIndex⟩

/-- A login, one refused for its account, a logout from the wrong server and
one from the right one. -/
theorem player_index_agrees_runs :
    ∃ m, run (Master.step .plain) (.init ∅)
      [⟨0, .logIn 7 "a" 1⟩, ⟨1, .logIn 8 "a" 1⟩, ⟨2, .logIn 9 "b" 2⟩, ⟨3, .logOut 7 2⟩,
        ⟨4, .logOut 7 1⟩, ⟨5, .expireSession 2⟩] = some m ∧ PlayerIndex m :=
  player_index_agrees .plain ∅ _ (by decide)

/-- A player logged in under `UID_INVALID` and shut down: the UID map still
leads to it, and the next shutdown deletes it once more. -/
theorem invalid_uid_dangles :
    (¬ ∀ (events : List Event) (m : Master (StdMap LKEY Ptr)), (∀ e ∈ events, e.op.indexing) →
      run (Master.step .plain) (.init ∅) events = some m → PlayerIndex m) ∧
    run (Master.step .plain) (.init ∅)
      [⟨0, .logIn 0 "a" 1⟩, ⟨1, .logOutForce 0⟩, ⟨2, .logOutForce 0⟩] = none := by
  refine ⟨fun h => ?_, by decide⟩
  have hindex := h [⟨0, .logIn 0 "a" 1⟩, ⟨1, .logOutForce 0⟩] _ (by decide) rfl
  obtain ⟨player, hl, -⟩ := (hindex.uid 0 0).mp (by decide)
  exact absurd (Option.isSome_of_eq_some hl) (by decide)

end TestCodes.SvrMaster
