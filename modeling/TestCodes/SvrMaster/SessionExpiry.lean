import TestCodes.Lib.Partitioned
import TestCodes.SvrMaster.SessionIndex

/-! Which players a tick logs out, against a ledger of the keys issued and
checked in. -/
namespace TestCodes.SvrMaster
open Machine

/-- The last time read, and for each player the time at which its latest key was
issued, unless that key has been checked in. -/
structure Ledger where
  clock : Int
  issued : Ptr → Option Int

def Ledger.at (l : Ledger) (time : Int) : Ledger := { l with clock := time }

def Ledger.record (l : Ledger) (p : Ptr) (entry : Option Int) : Ledger :=
  { l with issued := Function.update l.issued p entry }

theorem Ledger.record_self (l : Ledger) (p : Ptr) (entry : Option Int) :
    (l.record p entry).issued p = entry := Function.update_self ..

theorem Ledger.record_of_ne (l : Ledger) {p q : Ptr} (h : q ≠ p) (entry : Option Int) :
    (l.record p entry).issued q = l.issued q := Function.update_of_ne h ..

def Ledger.next {C : Type} (m : Master C) (e : Event) (l : Ledger) : Ledger :=
  match m.sessionCall e with
  | none => l.at e.time
  | some (p, entry) => (l.at e.time).record p entry

/-- The latest key of the player has waited for the whole period. -/
def Ledger.Due (l : Ledger) (period timeCur : Int) (p : Ptr) : Prop :=
  ∃ time, l.issued p = some time ∧ time + period ≤ timeCur

def ledgerStep {C : Type} (o : Outside C) (s : Master C × Ledger) (e : Event) :
    Option (Master C × Ledger) :=
  (s.1.step o e).map fun m => (m, s.2.next s.1 e)

section
variable {C : Type} {o : Outside C} {m m' : Master C} {l : Ledger}

/-- The clock does not go back, no entry is left behind, and no key is issued
that is still waiting or some player's own. -/
def Timely (s : Master C × Ledger) (e : Event) : Prop :=
  s.2.clock ≤ e.time ∧ Conforms s.1 e ∧ (s.1.issuesKey e = true →
    ∀ x ∈ s.1.heap.entries, x.2.sessionKey ≠ s.1.validator.nextKey)

instance (s : Master C × Ledger) (e : Event) : Decidable (Timely s e) :=
  inferInstanceAs (Decidable (_ ∧ _ ∧ _))

/-- A player whose key is out waits under it; one that checked in does not. -/
def Standing (period : Int) (m : Master C) (p : Ptr) (key : SessionKey) : Option Int → Prop
  | some time => m.mapUserSession.find key = some p ∧
      ⟨key, time + period⟩ ∈ m.validator.listWaitSessions
  | none => m.mapUserSession.find key ≠ some p

structure Timed (period : Int) (m : Master C) (l : Ledger) : Prop where
  sessions : Sessions m
  ownKey : ∀ p q x y, m.heap.find p = some x → m.heap.find q = some y →
    x.sessionKey = y.sessionKey → p = q
  standing : ∀ p x, m.heap.find p = some x → Standing period m p x.sessionKey (l.issued p)
  sorted : m.validator.listWaitSessions.Pairwise fun s s' => s.timeExpiration ≤ s'.timeExpiration
  bounded : ∀ s ∈ m.validator.listWaitSessions, s.timeExpiration ≤ l.clock + period

theorem Standing.of_same {period : Int} {p : Ptr} {key : SessionKey} {entry : Option Int}
    (h : Standing period m p key entry)
    (hfind : m'.mapUserSession.find key = m.mapUserSession.find key)
    (hmem : ∀ s ∈ m.validator.listWaitSessions, s.sessionKey = key →
      s ∈ m'.validator.listWaitSessions) : Standing period m' p key entry := by
  cases entry with
  | none => rwa [Standing, hfind]
  | some time =>
      obtain ⟨hp, hs⟩ := h
      exact ⟨by rw [hfind, hp], hmem _ hs rfl⟩

theorem Timed.init (period : Int) (vecPlayerID : C) (l : Ledger) :
    Timed period (Master.init vecPlayerID) l where
  sessions := .init vecPlayerID
  ownKey p q x y hp := by cases hp
  standing p x hp := by cases hp
  sorted := .nil
  bounded s hs := by cases hs

theorem Timed.clock {period : Int} (h : Timed period m l) {time : Int} (ht : l.clock ≤ time) :
    Timed period m (l.at time) where
  sessions := h.sessions
  ownKey := h.ownKey
  standing := h.standing
  sorted := h.sorted
  bounded s hs := by
    have hb := h.bounded s hs
    simp only [Ledger.at]
    omega

theorem sorted_pushSession {v : CSessionValidator} {period now : Int}
    (hs : v.listWaitSessions.Pairwise fun s s' => s.timeExpiration ≤ s'.timeExpiration)
    (hb : ∀ s ∈ v.listWaitSessions, s.timeExpiration ≤ now + period) :
    ((v.pushSession period now).2.listWaitSessions.Pairwise
      fun s s' => s.timeExpiration ≤ s'.timeExpiration) ∧
    ∀ s ∈ (v.pushSession period now).2.listWaitSessions, s.timeExpiration ≤ now + period := by
  have hpush : (v.pushSession period now).2.listWaitSessions =
      v.listWaitSessions ++ [⟨v.nextKey, now + period⟩] := rfl
  rw [hpush]
  refine ⟨List.pairwise_append.mpr ⟨hs, List.pairwise_singleton _ _, ?_⟩, ?_⟩
  · intro s hmem s' hs'
    rw [List.mem_singleton.mp hs']
    exact hb s hmem
  · intro s hmem
    rcases List.mem_append.mp hmem with hmem | hmem
    · exact hb s hmem
    · exact Int.le_of_eq (congrArg Session.timeExpiration (List.mem_singleton.mp hmem))

theorem Sessions.find_nextKey (h : Sessions m)
    (hk : m.validator.nextKey ∉ m.validator.waitingKeys) :
    m.mapUserSession.find m.validator.nextKey = none := by
  cases hf : m.mapUserSession.find m.validator.nextKey with
  | none => rfl
  | some p =>
      obtain ⟨-, -, -, hmem⟩ := h.entry _ p hf
      exact absurd hmem hk

theorem Timed.issue (h : Timed o.authKeyExpireTimePeriod m l) {p : Ptr}
    (hi : Issues o l.clock p m m') (sessions : Sessions m')
    (hk : m.validator.nextKey ∉ m.validator.waitingKeys)
    (hown : ∀ q y, m.heap.find q = some y → y.sessionKey ≠ m.validator.nextKey) :
    Timed o.authKeyExpireTimePeriod m' (l.record p (some l.clock)) where
  sessions := sessions
  ownKey q r x y hq hr hxy := by
    obtain ⟨player, hkey, hheap⟩ := hi.heap
    rw [hheap, StdMap.find_set] at hq hr
    by_cases hqp : q = p <;> by_cases hrp : r = p <;>
      simp only [hqp, hrp, ↓reduceIte, Option.some.injEq] at hq hr ⊢
    · rw [← hq, hkey] at hxy
      exact absurd hxy.symm (hown r y hr)
    · rw [← hr, hkey] at hxy
      exact absurd hxy (hown q x hq)
    · exact h.ownKey q r x y hq hr hxy
  standing q x hq := by
    obtain ⟨player, hkey, hheap⟩ := hi.heap
    have hwaits : m'.validator.listWaitSessions = m.validator.listWaitSessions ++
        [⟨m.validator.nextKey, l.clock + o.authKeyExpireTimePeriod⟩] := by
      rw [hi.validator]
      rfl
    rw [hheap, StdMap.find_set] at hq
    by_cases hqp : q = p
    · simp only [hqp, ↓reduceIte, Option.some.injEq] at hq
      rw [hqp, ← hq, hkey, Ledger.record_self]
      refine ⟨?_, by rw [hwaits]; exact List.mem_append_right _ (List.mem_singleton_self _)⟩
      rw [hi.session, StdMap.find_insertNew_self (h.sessions.find_nextKey hk)]
    · simp only [hqp, ↓reduceIte] at hq
      rw [Ledger.record_of_ne l hqp]
      refine (h.standing q x hq).of_same ?_ ?_
      · rw [hi.session, StdMap.find_insertNew_ne _ (hown q x hq)]
      · intro s hs _
        rw [hwaits]
        exact List.mem_append_left _ hs
  sorted := by
    rw [hi.validator]
    exact (sorted_pushSession h.sorted h.bounded).1
  bounded := by
    rw [hi.validator]
    exact (sorted_pushSession h.sorted h.bounded).2

theorem Timed.checkIn {period : Int} (h : Timed period m l) {p : Ptr} {player : CPlayer}
    (hl : m.heap.find p = some player) :
    Timed period (m.playerCheckInUpdate player) (l.record p none) where
  sessions := h.sessions.checkIn player
  ownKey := h.ownKey
  standing q x hq := by
    by_cases hqp : q = p
    · subst hqp
      have hq' : m.heap.find q = some x := hq
      rw [hl] at hq'
      obtain rfl := Option.some.inj hq'
      simp only [Ledger.record_self, Standing, Master.playerCheckInUpdate, StdMap.find_eraseKey,
        ↓reduceIte]
      exact Option.some_ne_none q ∘ Eq.symm
    · have hkey : x.sessionKey ≠ player.sessionKey := fun he => hqp (h.ownKey q p x player hq hl he)
      rw [Ledger.record_of_ne l hqp]
      refine (h.standing q x hq).of_same ?_ ?_
      · simp only [Master.playerCheckInUpdate, StdMap.find_eraseKey, if_neg hkey]
      · intro s hs hsk
        simp only [Master.playerCheckInUpdate, CSessionValidator.eraseSession]
        exact (List.mem_eraseP_of_neg (by simpa [hsk] using hkey)).mpr hs
  sorted := h.sorted.sublist List.eraseP_sublist
  bounded s hs := h.bounded s (List.eraseP_subset hs)

theorem Timed.logOut {period : Int} (h : Timed period m l) {p : Ptr} {player : CPlayer}
    (hl : m.heap.find p = some player) : Timed period (m.logOutUpdate o p player) l where
  sessions := h.sessions.logOut hl
  ownKey q r x y hq hr :=
    h.ownKey q r x y (StdMap.find_eraseKey_some hq).2 (StdMap.find_eraseKey_some hr).2
  standing q x hq := by
    obtain ⟨hqp, hq⟩ := StdMap.find_eraseKey_some hq
    have hkey : x.sessionKey ≠ player.sessionKey := fun he => hqp (h.ownKey q p x player hq hl he)
    refine (h.standing q x hq).of_same ?_ fun s hs _ => hs
    simp only [Master.logOutUpdate, StdMap.find_eraseKey, if_neg hkey]
  sorted := h.sorted
  bounded := h.bounded

theorem find_set_change {p q : Ptr} {player x : CPlayer} {heap : StdMap Ptr CPlayer}
    (hl : heap.find p = some player) {playerAuthKey : UInt64} {svrKey : LKEY}
    (hq : (heap.set p { player with playerAuthKey, svrKey }).find q = some x) :
    ∃ y, heap.find q = some y ∧ y.sessionKey = x.sessionKey := by
  rw [StdMap.find_set] at hq
  split at hq
  · rename_i hqp
    exact ⟨player, hqp ▸ hl, Option.some.inj hq ▸ rfl⟩
  · exact ⟨x, hq, rfl⟩

theorem Timed.change {period : Int} (h : Timed period m l) {p : Ptr} {player : CPlayer}
    (hl : m.heap.find p = some player) (playerAuthKey : UInt64) (svrKey : LKEY) :
    Timed period { m with heap := m.heap.set p { player with playerAuthKey, svrKey } } l where
  sessions := h.sessions.change hl playerAuthKey svrKey
  ownKey q r x y hq hr hxy := by
    obtain ⟨x', hq', hx⟩ := find_set_change hl hq
    obtain ⟨y', hr', hy⟩ := find_set_change hl hr
    exact h.ownKey q r x' y' hq' hr' (by rw [hx, hxy, hy])
  standing q x hq := by
    obtain ⟨x', hq', hx⟩ := find_set_change hl hq
    rw [← hx]
    exact h.standing q x' hq'
  sorted := h.sorted
  bounded := h.bounded

theorem mem_takeWhile_of_sorted {ss : List Session} {s : Session} {timeCur : Int}
    (hsorted : ss.Pairwise fun s s' => s.timeExpiration ≤ s'.timeExpiration) (hs : s ∈ ss)
    (ht : s.timeExpiration ≤ timeCur) : s ∈ ss.takeWhile (·.timeExpiration ≤ timeCur) := by
  rw [(Partitioned.of_sorted hsorted timeCur).takeWhile_eq_filter]
  exact List.mem_filter.mpr ⟨hs, decide_eq_true ht⟩

theorem Timed.tick {period : Int} (h : Timed period m l) {due rest : List Session}
    (hw : m.validator.listWaitSessions = due ++ rest) (ht : Ticked due rest m m')
    (sessions : Sessions m') : Timed period m' l where
  sessions := sessions
  ownKey p q x y hp hq := h.ownKey p q x y ((ht.heap p x).mp hp).1 ((ht.heap q y).mp hq).1
  standing p x hp := by
    obtain ⟨hl, hdue⟩ := (ht.heap p x).mp hp
    have hs := h.standing p x hl
    cases hi : l.issued p with
    | none =>
        rw [hi] at hs
        rw [Standing, ht.session]
        split
        · exact Option.some_ne_none p ∘ Eq.symm
        · exact hs
    | some time =>
        rw [hi] at hs
        obtain ⟨hfind, hmem⟩ := hs
        have hnot : ∀ s ∈ due, s.sessionKey ≠ x.sessionKey := fun s hs he => hdue s hs (he ▸ hfind)
        refine ⟨?_, ?_⟩
        · rw [ht.session, if_neg, hfind]
          intro hkey
          obtain ⟨s, hs, he⟩ := List.mem_map.mp hkey
          exact hnot s hs he
        · rw [hw] at hmem
          rw [ht.waits]
          exact (List.mem_append.mp hmem).resolve_left fun hs => hnot _ hs rfl
  sorted := by
    have hsorted := h.sorted
    rw [hw] at hsorted
    rw [ht.waits]
    exact (List.pairwise_append.mp hsorted).2.1
  bounded s hs := by
    rw [ht.waits] at hs
    exact h.bounded s (by rw [hw]; exact List.mem_append_right _ hs)

theorem Timed.tick_exact {period : Int} (h : Timed period m l) {timeCur : Int}
    {rest : List Session}
    (ht : Ticked (m.validator.listWaitSessions.takeWhile (·.timeExpiration ≤ timeCur)) rest m m')
    {p : Ptr} {player : CPlayer} (hl : m.heap.find p = some player) :
    m'.heap.find p = some player ↔ ¬ l.Due period timeCur p := by
  rw [ht.heap]
  have hs := h.standing p player hl
  constructor
  · rintro ⟨-, hdue⟩ ⟨time, hi, htime⟩
    rw [hi] at hs
    obtain ⟨hfind, hmem⟩ := hs
    exact hdue _ (mem_takeWhile_of_sorted h.sorted hmem htime) hfind
  · intro hnot
    refine ⟨hl, fun s hs' hfind => hnot ?_⟩
    obtain ⟨player', hl', hkey, -⟩ := h.sessions.entry _ p hfind
    rw [hl] at hl'
    obtain rfl := Option.some.inj hl'
    cases hi : l.issued p with
    | none =>
        rw [hi, hkey] at hs
        exact absurd hfind hs
    | some time =>
        rw [hi] at hs
        obtain ⟨-, hmem⟩ := hs
        have hsame := List.inj_on_of_nodup_map h.sessions.nodup hmem (List.takeWhile_subset _ hs')
          hkey
        refine ⟨time, hi, ?_⟩
        have hle := List.mem_takeWhile_imp hs'
        rw [← hsame] at hle
        simpa using hle

theorem Timed.step {l' : Ledger} (h : Timed o.authKeyExpireTimePeriod m l) {e : Event}
    (ok : Timely (m, l) e) (hm : ledgerStep o (m, l) e = some (m', l')) :
    Timed o.authKeyExpireTimePeriod m' l' := by
  obtain ⟨hclock, hconf, hown⟩ := ok
  obtain ⟨m₁, hstep, hpair⟩ := Option.map_eq_some_iff.mp hm
  obtain ⟨rfl, rfl⟩ := Prod.mk.inj hpair
  have hat := h.clock hclock
  have sessions := h.sessions.step hconf hstep
  by_cases he : e.op = .tickProcess
  · have hquiet : m.sessionCall e = none := by rw [Master.sessionCall, he]
    obtain ⟨m₂, hrun, -, ht⟩ := h.sessions.tick o e.time rfl
    rw [Master.step, he] at hstep
    obtain rfl := Option.some.inj (hstep.symm.trans hrun)
    rw [Ledger.next, hquiet]
    exact hat.tick List.takeWhile_append_dropWhile.symm ht sessions
  · have hfresh : m.issuesKey e = true → m.validator.nextKey ∉ m.validator.waitingKeys ∧
        ∀ q y, m.heap.find q = some y → y.sessionKey ≠ m.validator.nextKey :=
      fun hi => ⟨hconf.2 hi, fun q y hq => hown hi _ (StdMap.mem_entries hq)⟩
    cases Master.step_cases he hstep with
    | same hquiet =>
        rw [Ledger.next, hquiet]
        exact hat
    | @loggedIn uid account keySvr _ hcall =>
        obtain ⟨hk, hown⟩ := hfresh (by simp [Master.issuesKey, hcall])
        rw [Ledger.next, hcall]
        exact hat.issue (.logIn o e.time uid account keySvr m) sessions hk hown
    | checkedIn _ hcall hl =>
        rw [Ledger.next, hcall]
        exact hat.checkIn hl
    | @reserved uid p player _ hcall =>
        obtain ⟨hk, hown⟩ := hfresh (by simp [Master.issuesKey, hcall])
        rw [Ledger.next, hcall]
        exact hat.issue (.reserve o e.time p player m) sessions hk hown
    | loggedOut hquiet _ hl =>
        rw [Ledger.next, hquiet]
        exact hat.logOut hl
    | changed playerAuthKey svrKey hquiet hl =>
        rw [Ledger.next, hquiet]
        exact hat.change hl playerAuthKey svrKey

end

/-- From the empty manager on, while no move leaves an entry behind, a tick logs
out exactly the players whose latest key was not checked in for the period. No
step comes to a deleted player while none under `UID_INVALID` is removed. -/
theorem session_expiry {C : Type} (o : Outside C) (vecPlayerID : C) (start : Int)
    (events : List Event)
    (ok : Along (ledgerStep o) Timely (.init vecPlayerID, ⟨start, fun _ => none⟩) events) :
    (∀ m l, run (ledgerStep o) (.init vecPlayerID, ⟨start, fun _ => none⟩) events = some (m, l) →
      ∀ timeCur, ∃ m', m.tickProcess o timeCur = some m' ∧
        ∀ p player, m.heap.find p = some player →
          (l.Due o.authKeyExpireTimePeriod timeCur p → m'.heap.find p = none) ∧
          (¬ l.Due o.authKeyExpireTimePeriod timeCur p → m'.heap.find p = some player)) ∧
    (Along (ledgerStep o) (fun s e => Spares o s.1 e) (.init vecPlayerID, ⟨start, fun _ => none⟩)
        events →
      ∃ s, run (ledgerStep o) (.init vecPlayerID, ⟨start, fun _ => none⟩) events = some s) := by
  constructor
  · intro m l hm timeCur
    have h : Timed o.authKeyExpireTimePeriod m l :=
      run_invariant (fun s : Master C × Ledger => Timed o.authKeyExpireTimePeriod s.1 s.2)
        (fun _ _ _ h ok hm => h.step ok hm) (Timed.init _ vecPlayerID _) ok hm
    obtain ⟨m', hrun, -, ht⟩ := h.sessions.tick o timeCur rfl
    refine ⟨m', hrun, fun p player hl => ⟨fun hdue => ?_, (h.tick_exact ht hl).mpr⟩⟩
    cases hp : m'.heap.find p with
    | none => rfl
    | some other =>
        obtain ⟨hother, -⟩ := (ht.heap p other).mp hp
        exact absurd hdue ((h.tick_exact ht hother).mp hp)
  · intro spares
    obtain ⟨s, hs, -⟩ := run_progress (fun s : Master C × Ledger => Sessions s.1 ∧ Named s.1)
      (fun s e ⟨h, hnamed⟩ ⟨⟨_, hconforms, _⟩, hspares⟩ => by
        obtain ⟨m', hm⟩ := h.defined hnamed o e
        exact ⟨(m', s.2.next s.1 e), by rw [ledgerStep, hm, Option.map_some],
          h.step hconforms hm, hnamed.step h hspares hm⟩)
      ⟨.init vecPlayerID, .init vecPlayerID⟩ (ok.and spares)
    exact ⟨s, hs⟩

/-- A player that checked in after a move, and one that did not check in. -/
theorem session_expiry_checked_in :
    ∃ m l m', run (ledgerStep .plain) (.init ∅, ⟨0, fun _ => none⟩)
        [⟨0, .logIn 7 "a" 1⟩, ⟨5, .logIn 8 "b" 1⟩, ⟨6, .playerCheckIn 7⟩,
          ⟨7, .reserveMoveSession 7⟩, ⟨9, .playerCheckIn 7⟩] = some (m, l) ∧
      m.tickProcess .plain 65 = some m' ∧ (m'.heap.find 0).isSome ∧ m'.heap.find 1 = none := by
  obtain ⟨hexpiry, -⟩ := session_expiry .plain ∅ 0
    [⟨0, .logIn 7 "a" 1⟩, ⟨5, .logIn 8 "b" 1⟩, ⟨6, .playerCheckIn 7⟩,
      ⟨7, .reserveMoveSession 7⟩, ⟨9, .playerCheckIn 7⟩] (by decide)
  obtain ⟨m', hrun, hexact⟩ := hexpiry _ _ rfl 65
  refine ⟨_, _, m', rfl, hrun, ?_, ?_⟩
  · refine Option.isSome_of_eq_some ((hexact 0 _ rfl).2 ?_)
    rintro ⟨time, hissued, -⟩
    cases hissued
  · exact (hexact 1 _ rfl).1 ⟨5, rfl, by decide⟩

/-- A move before the check-in: the login key expires although the later one
was checked in, and takes the player with it. -/
theorem old_key_expires_player :
    ¬ ∀ (events : List Event) (m m' : Master (StdMap LKEY Ptr)) (l : Ledger) (timeCur : Int),
      (events.map Event.time).Pairwise (· ≤ ·) →
      run (ledgerStep .plain) (.init ∅, ⟨0, fun _ => none⟩) events = some (m, l) →
      l.clock ≤ timeCur → m.tickProcess .plain timeCur = some m' →
      ∀ p player, m.heap.find p = some player →
        ¬ l.Due Outside.plain.authKeyExpireTimePeriod timeCur p →
          m'.heap.find p = some player := by
  intro h
  have hkept := h [⟨0, .logIn 7 "a" 1⟩, ⟨1, .reserveMoveSession 7⟩, ⟨2, .playerCheckIn 7⟩] _ _ _ 60
    (by decide) rfl (by decide) rfl 0 _ rfl
  refine absurd (Option.isSome_of_eq_some (hkept ?_)) (by decide)
  rintro ⟨time, hissued, -⟩
  cases hissued

end TestCodes.SvrMaster
