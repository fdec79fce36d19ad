import TestCodes.Lib.History
import TestCodes.TestUnits.CritSectLite

/-! `CLockingRefCountLite`, a reference count that a thread can close to new references. Every
access to the memory is a step of its own. -/
namespace TestCodes.TestUnits

open Threads

namespace CLockingRefCountLite

def locked : UInt16 := 0
def unlocked : UInt16 := 1

inductive Call
  | tryIncrement
  | increment
  | decrement
  | lock
  | unlock
  | refCount
  | waitZeroRef
  deriving DecidableEq

/-- `Increment` and `WaitZeroRef` are loops of another call. -/
def Call.body : Call → Call
  | .increment => .tryIncrement
  | .waitZeroRef => .refCount
  | call => call

def Call.again (answer : UInt16) : Call → Bool
  | .increment => answer = 0
  | .waitZeroRef => answer ≠ 0
  | _ => false

/-- Where a thread is in a call: between the accesses to the memory, with what it has read. -/
inductive Doing
  | nothing
  | spinning (call : Call)
  | syncing (call : Call)
  | reading (call : Call)
  | adding (call : Call) (lock : UInt16)
  | storing (call : Call) (value answer : UInt16)
  | leaving (call : Call) (answer : UInt16)
  deriving DecidableEq

/-- A thread, how many references are its to drop, whether it is the one that has locked the
count, and whether it has found the count 0 since. -/
structure Place where
  held : ℕ
  closes : Bool
  drained : Bool
  doing : Doing
  deriving DecidableEq

/-- The members, and the calls that have taken effect, the last one first. -/
structure Words (τ : Type*) where
  syncLock : UInt32
  lock : UInt16
  refCount : UInt16
  history : List (τ × Call × UInt16)

variable {τ : Type*}

def reading (t : τ) (s : Words τ) (l : Place) (call : Call) : Words τ × Place :=
  match call with
  | .tryIncrement | .increment => (s, { l with doing := .adding call s.lock })
  | .decrement => (s, { l with doing := .storing call (s.refCount - 1) 0 })
  | .lock => (s, { l with doing := .storing call locked s.lock })
  | .unlock => (s, { l with doing := .storing call unlocked s.lock })
  | .refCount | .waitZeroRef =>
      ({ s with history := (t, .refCount, s.refCount) :: s.history },
        { l with
          drained := l.drained || l.closes && s.refCount = 0
          doing := .leaving call s.refCount })

def storing (t : τ) (s : Words τ) (l : Place) (call : Call) (value answer : UInt16) :
    Words τ × Place :=
  match call with
  | .tryIncrement | .increment =>
      ({ s with refCount := value, history := (t, .tryIncrement, answer) :: s.history },
        { l with held := l.held + answer.toNat, doing := .leaving call answer })
  | .decrement =>
      ({ s with refCount := value, history := (t, .decrement, answer) :: s.history },
        { l with held := l.held - 1, doing := .leaving call answer })
  | .lock =>
      ({ s with lock := value, history := (t, .lock, answer) :: s.history },
        { l with closes := l.closes || answer ≠ locked, doing := .leaving call answer })
  | .unlock =>
      ({ s with lock := value, history := (t, .unlock, answer) :: s.history },
        ⟨l.held, false, false, .leaving call answer⟩)
  | .refCount | .waitZeroRef => (s, { l with doing := .leaving call answer })

/-- A thread makes only the calls that it may make. -/
def code (may : Place → Call → Bool) (t : τ) (call : Call) (s : Words τ) (l : Place) :
    Words τ × Place :=
  match l.doing with
  | .nothing => (s, if may l call then { l with doing := .syncing call } else l)
  | .spinning call => (s, { l with doing := .syncing call })
  | .syncing call =>
      if s.syncLock = 0 then
        ({ s with syncLock := CCritSectLite.lockFlag }, { l with doing := .reading call })
      else (s, l)
  | .reading call => reading t s l call
  | .adding call lock => (s, { l with doing := .storing call (s.refCount + lock) lock })
  | .storing call value answer => storing t s l call value answer
  | .leaving call answer =>
      ({ s with syncLock := 0 },
        { l with doing := if call.again answer then .spinning call else .nothing })

def new : Threads τ (Words τ) Place :=
  ⟨⟨0, unlocked, 0, []⟩, fun _ => ⟨0, false, false, .nothing⟩⟩

section Sync
variable {may : Place → Call → Bool}

def Doing.atSync : Doing → CCritSectLite.Place
  | .nothing | .spinning _ => .outside
  | .syncing _ => .entering
  | .reading _ | .adding _ _ | .storing _ _ _ | .leaving _ _ => .inside

def Place.atSync (l : Place) : CCritSectLite.Place := l.doing.atSync

theorem code_simulates (t : τ) (call : Call) (s : Words τ) (l : Place) :
    (code may t call s l).1.syncLock = s.syncLock ∧
        (code may t call s l).2.atSync = l.atSync ∨
      ∃ call', CCritSectLite.code t call' s.syncLock l.atSync =
        ((code may t call s l).1.syncLock, (code may t call s l).2.atSync) := by
  obtain ⟨held, closes, drained, doing⟩ := l
  cases doing with
  | nothing =>
      by_cases hmay : may ⟨held, closes, drained, .nothing⟩ call
      · refine .inr ⟨.enter, ?_⟩
        simp only [code, if_pos hmay]
        rfl
      · left
        simp only [code, if_neg hmay, and_self]
  | spinning call => exact .inr ⟨.enter, rfl⟩
  | syncing call =>
      refine .inr ⟨.enter, ?_⟩
      by_cases hfree : s.syncLock = 0
      · simp only [code, if_pos hfree, CCritSectLite.code, Place.atSync, Doing.atSync]
      · simp only [code, if_neg hfree, CCritSectLite.code, Place.atSync, Doing.atSync]
  | reading call => cases call <;> exact .inl ⟨rfl, rfl⟩
  | adding call lock => exact .inl ⟨rfl, rfl⟩
  | storing call value answer => cases call <;> exact .inl ⟨rfl, rfl⟩
  | leaving call answer =>
      refine .inr ⟨.enter, ?_⟩
      by_cases hagain : call.again answer
      · simp only [code, if_pos hagain, CCritSectLite.code, Place.atSync, Doing.atSync]
      · simp only [code, if_neg hagain, CCritSectLite.code, Place.atSync, Doing.atSync]

/-- One thread at a time is between `LOCKSYNC` and `UNLOCKSYNC`. -/
theorem guarded_of_reaches [DecidableEq τ] {c : Threads τ (Words τ) Place}
    (hc : Reaches (code may) new c) :
    CCritSectLite.Guarded (view Words.syncLock Place.atSync c) :=
  CCritSectLite.guarded_of_reaches (hc.simulates code_simulates)

end Sync

section Effect

structure Counter where
  lock : UInt16
  refCount : UInt16

def Call.atOnce : Call → Counter → Counter × UInt16
  | .tryIncrement, s | .increment, s => ({ s with refCount := s.refCount + s.lock }, s.lock)
  | .decrement, s => ({ s with refCount := s.refCount - 1 }, 0)
  | .lock, s => ({ s with lock := locked }, s.lock)
  | .unlock, s => ({ s with lock := unlocked }, s.lock)
  | .refCount, s | .waitZeroRef, s => (s, s.refCount)

def Words.see (s : Words τ) : Counter := ⟨s.lock, s.refCount⟩

/-- The memory and the thread once the call has taken effect. -/
def Words.after (s : Words τ) (t : τ) (made : Call) : Words τ :=
  let (left, answer) := made.atOnce s.see
  ⟨s.syncLock, left.lock, left.refCount, (t, made.body, answer) :: s.history⟩

def Place.after (s : Words τ) (l : Place) (made : Call) : Place :=
  let doing := .leaving made (made.atOnce s.see).2
  match made with
  | .tryIncrement | .increment => { l with held := l.held + s.lock.toNat, doing }
  | .decrement => { l with held := l.held - 1, doing }
  | .lock => { l with closes := l.closes || s.lock ≠ locked, doing }
  | .unlock => ⟨l.held, false, false, doing⟩
  | .refCount | .waitZeroRef =>
      { l with drained := l.drained || l.closes && s.refCount = 0, doing }

def Doing.call : Doing → Option Call
  | .nothing => none
  | .spinning call | .syncing call | .reading call => some call
  | .adding call _ | .storing call _ _ => some call
  | .leaving call answer => if call.again answer then some call else none

theorem leaving_call {call made : Call} {answer : UInt16}
    (h : (Doing.leaving call answer).call = some made) : made = call ∧ call.again answer := by
  rw [Doing.call, Option.ite_none_right_eq_some, Option.some.injEq] at h
  exact ⟨h.2.symm, h.1⟩

variable [DecidableEq τ]

def Place.Current (t : τ) (s : Words τ) (l : Place) : Prop :=
  match l.doing with
  | .nothing | .spinning _ | .syncing _ | .reading _ => True
  | .adding call lock => (call = .tryIncrement ∨ call = .increment) ∧ lock = s.lock
  | .storing call value answer =>
      match call with
      | .tryIncrement | .increment => answer = s.lock ∧ value = s.refCount + answer
      | .decrement => answer = 0 ∧ value = s.refCount - 1
      | .lock => answer = s.lock ∧ value = locked
      | .unlock => answer = s.lock ∧ value = unlocked
      | .refCount | .waitZeroRef => False
  | .leaving call answer =>
      s.history.find? (fun entry => entry.1 = t) = some (t, call.body, answer)

variable {may : Place → Call → Bool} {t : τ} {call : Call} {s s' : Words τ} {l : Place}

theorem Place.Current.congr (h : l.Current t s) (hlock : s'.lock = s.lock)
    (hcount : s'.refCount = s.refCount) (hhistory : s'.history = s.history) :
    l.Current t s' := by
  unfold Place.Current at *
  rw [hlock, hcount, hhistory]
  exact h

theorem Place.Current.outside (h : l.Current t s) (hl : l.atSync ≠ .inside) :
    l.Current t s' := by
  obtain ⟨held, closes, drained, doing⟩ := l
  cases doing with
  | nothing | spinning | syncing => trivial
  | reading | adding | storing | leaving => exact absurd rfl hl

theorem current_after (made : Call) : (l.after s made).Current t (s.after t made) := by
  cases made <;> exact List.find?_cons_of_pos (by simp)

/-- A step is the effect of the thread's call, or it changes the sync lock at most. -/
theorem code_cases (hl : l.Current t s) :
    (∃ made, l.doing.call = some made ∧ l.atSync = .inside ∧
      code may t call s l = (s.after t made, l.after s made)) ∨
    ∃ syncLock doing, code may t call s l = ({ s with syncLock }, { l with doing }) ∧
      Place.Current t s { l with doing } ∧
      ∀ made, doing.call = some made → l.doing.call = some made ∨ may l made := by
  obtain ⟨held, closes, drained, doing⟩ := l
  cases doing with
  | nothing =>
      right
      by_cases hmay : may ⟨held, closes, drained, .nothing⟩ call
      · refine ⟨s.syncLock, .syncing call, by simp only [code, if_pos hmay], trivial, ?_⟩
        rintro made ⟨⟩
        exact .inr hmay
      · exact ⟨s.syncLock, .nothing, by simp only [code, if_neg hmay], trivial, nofun⟩
  | spinning call => exact .inr ⟨s.syncLock, .syncing call, rfl, trivial, fun _ => .inl⟩
  | syncing call =>
      right
      by_cases hfree : s.syncLock = 0
      · exact ⟨CCritSectLite.lockFlag, .reading call, by simp only [code, if_pos hfree], trivial,
          fun _ => .inl⟩
      · exact ⟨s.syncLock, .syncing call, by simp only [code, if_neg hfree], trivial,
          fun _ => .inl⟩
  | reading call =>
      cases call with
      | tryIncrement =>
          exact .inr ⟨s.syncLock, .adding .tryIncrement s.lock, rfl, ⟨.inl rfl, rfl⟩, fun _ => .inl⟩
      | increment =>
          exact .inr ⟨s.syncLock, .adding .increment s.lock, rfl, ⟨.inr rfl, rfl⟩, fun _ => .inl⟩
      | decrement => exact .inr ⟨s.syncLock, _, rfl, ⟨rfl, rfl⟩, fun _ => .inl⟩
      | lock => exact .inr ⟨s.syncLock, _, rfl, ⟨rfl, rfl⟩, fun _ => .inl⟩
      | unlock => exact .inr ⟨s.syncLock, _, rfl, ⟨rfl, rfl⟩, fun _ => .inl⟩
      | refCount => exact .inl ⟨.refCount, rfl, rfl, rfl⟩
      | waitZeroRef => exact .inl ⟨.waitZeroRef, rfl, rfl, rfl⟩
  | adding call lock =>
      obtain ⟨rfl | rfl, rfl⟩ := hl
      · exact .inr ⟨s.syncLock, _, rfl, ⟨rfl, rfl⟩, fun _ => .inl⟩
      · exact .inr ⟨s.syncLock, _, rfl, ⟨rfl, rfl⟩, fun _ => .inl⟩
  | storing call value answer =>
      cases call with
      | refCount | waitZeroRef => exact hl.elim
      | tryIncrement | increment | decrement | lock | unlock =>
          obtain ⟨rfl, rfl⟩ := hl
          exact .inl ⟨_, rfl, rfl, rfl⟩
  | leaving call answer =>
      right
      by_cases hagain : call.again answer
      · refine ⟨0, .spinning call, by simp only [code, if_pos hagain], trivial, ?_⟩
        intro made hmade
        rw [Doing.call, if_pos hagain]
        exact .inl hmade
      · exact ⟨0, .nothing, by simp only [code, if_neg hagain], trivial, nofun⟩

end Effect

section History
variable [DecidableEq τ] {may : Place → Call → Bool} {c : Threads τ (Words τ) Place}

/-- The steps of one thread leave true what the others have read, as only one has the sync lock. -/
theorem current_step (hguarded : CCritSectLite.Guarded (view Words.syncLock Place.atSync c))
    (h : ∀ t, (c.place t).Current t c.shared) (e : τ × Call) (t : τ) :
    ((step (code may) c e).place t).Current t (step (code may) c e).shared := by
  obtain ⟨made, -, hin, hcode⟩ | ⟨syncLock, doing, hcode, hself, -⟩ := code_cases (h e.1)
  · rw [step_shared, hcode]
    refine forall_step (P := fun t l => Place.Current t (c.shared.after e.1 made) l) ?_ ?_ t
    · rw [hcode]
      exact current_after made
    · intro t hte
      exact (h t).outside (hguarded.outside hin hte)
  · rw [step_shared, hcode]
    refine forall_step (P := fun t l => Place.Current t { c.shared with syncLock } l) ?_ ?_ t
    · rw [hcode]
      exact hself.congr rfl rfl rfl
    · exact fun t _ => (h t).congr rfl rfl rfl

theorem current_of_reaches (hc : Reaches (code may) new c) :
    ∀ t, (c.place t).Current t c.shared := by
  refine hc.invariant (fun c => ∀ t, (c.place t).Current t c.shared) (fun _ => trivial) ?_
  exact fun c e hc h => current_step (guarded_of_reaches hc) h e

end History

section Careful

/-- Threads drop only what they hold, and unlock what they have locked themselves. -/
def careful (l : Place) : Call → Bool
  | .decrement => 0 < l.held
  | .unlock => l.closes
  | .tryIncrement | .increment | .lock | .refCount | .waitZeroRef => true

def Place.closer (l : Place) : ℕ := l.closes.toNat

variable [Fintype τ]

def Fits (c : Threads τ (Words τ) Place) : Prop :=
  load Place.held c.place < 2 ^ 16

instance Fits.decidable (c : Threads τ (Words τ) Place) : Decidable (Fits c) :=
  inferInstanceAs (Decidable (load Place.held c.place < 2 ^ 16))

/-- The count is that of the references held, the count is locked by one thread or by none, nobody
has a reference once that one has found the count 0, and threads are in no other call than they
may make. -/
structure Sound (c : Threads τ (Words τ) Place) : Prop where
  count : c.shared.refCount.toNat = load Place.held c.place
  lock : load Place.closer c.place + c.shared.lock.toNat = 1
  drained : ∀ t, (c.place t).drained → (c.place t).closes ∧ c.shared.refCount = 0
  calls : ∀ t made, (c.place t).doing.call = some made → careful (c.place t) made

theorem sound_new : Sound (new : Threads τ (Words τ) Place) where
  count := ((load_eq_zero Place.held _).mpr fun _ => rfl).symm
  lock := by
    rw [(load_eq_zero Place.closer _).mpr fun _ => rfl]
    rfl
  drained _ h := by cases h
  calls _ := nofun

namespace Sound
variable {c : Threads τ (Words τ) Place}

theorem locked_of_closes (h : Sound c) {t : τ} (ht : (c.place t).closes) :
    c.shared.lock = locked := by
  have hone := h.lock
  have hle := le_load Place.closer c.place t
  have hcloser : (c.place t).closer = 1 := by rw [Place.closer, ht]; rfl
  apply UInt16.toNat_inj.mp
  change c.shared.lock.toNat = 0
  omega

theorem zero_iff (h : Sound c) :
    c.shared.refCount = 0 ↔ ∀ t, (c.place t).held = 0 := by
  rw [← load_eq_zero Place.held, ← h.count, ← UInt16.toNat_inj]
  rfl

variable [DecidableEq τ] {e : τ × Call}

theorem of_step (h : Sound c) {s : Words τ} {l : Place}
    (hcode : code careful e.1 e.2 c.shared (c.place e.1) = (s, l))
    (hcount : s.refCount.toNat + (c.place e.1).held = c.shared.refCount.toNat + l.held)
    (hlock : l.closer + s.lock.toNat = (c.place e.1).closer + c.shared.lock.toNat)
    (hzero : ∀ t, (c.place t).drained → s.refCount = 0)
    (hdrained : l.drained → l.closes ∧ s.refCount = 0)
    (hcalls : ∀ made, l.doing.call = some made → careful l made) :
    Sound (step (code careful) c e) := by
  have hheld := load_update Place.held c.place e.1 l
  have hcloser := load_update Place.closer c.place e.1 l
  have hbefore := h.count
  have hone := h.lock
  have hshared : (step (code careful) c e).shared = s := by rw [step_shared, hcode]
  have hplace : (step (code careful) c e).place = Function.update c.place e.1 l := by
    rw [step_place, hcode]
  refine ⟨?_, ?_, ?_, ?_⟩
  · rw [hshared, hplace]
    omega
  · rw [hshared, hplace]
    omega
  · rw [hshared, hplace]
    rw [Function.forall_update_iff c.place fun _ l => l.drained → l.closes ∧ s.refCount = 0]
    exact ⟨hdrained, fun t _ ht => ⟨(h.drained t ht).1, hzero t ht⟩⟩
  · rw [hplace, Function.forall_update_iff c.place fun _ l =>
      ∀ made, l.doing.call = some made → careful l made]
    exact ⟨hcalls, fun t _ => h.calls t⟩

theorem increments (h : Sound c) (hfits : Fits (step (code careful) c e)) {doing : Doing}
    (hcode : code careful e.1 e.2 c.shared (c.place e.1) =
      (c.shared.after e.1 .tryIncrement,
        { c.place e.1 with held := (c.place e.1).held + c.shared.lock.toNat, doing }))
    (hcalls : ∀ made, doing.call = some made → made = .increment) :
    Sound (step (code careful) c e) := by
  have hone := h.lock
  have hbefore := h.count
  have hheld := load_update Place.held c.place e.1
    { c.place e.1 with held := (c.place e.1).held + c.shared.lock.toNat, doing }
  change _ + _ = _ + ((c.place e.1).held + c.shared.lock.toNat) at hheld
  rw [Fits, step_place, hcode] at hfits
  change load Place.held (Function.update c.place e.1
    { c.place e.1 with held := (c.place e.1).held + c.shared.lock.toNat, doing }) < 2 ^ 16 at hfits
  have hcount : (c.shared.refCount + c.shared.lock).toNat =
      c.shared.refCount.toNat + c.shared.lock.toNat := by
    rw [UInt16.toNat_add]
    exact Nat.mod_eq_of_lt (by omega)
  have hzero : ∀ t, (c.place t).drained → c.shared.refCount + c.shared.lock = 0 := by
    intro t ht
    obtain ⟨hclosed, hnone⟩ := h.drained t ht
    rw [hnone, h.locked_of_closes hclosed]
    rfl
  refine h.of_step hcode ?_ rfl hzero ?_ ?_
  · change (c.shared.refCount + c.shared.lock).toNat + (c.place e.1).held =
      c.shared.refCount.toNat + ((c.place e.1).held + c.shared.lock.toNat)
    omega
  · exact fun ht => ⟨(h.drained e.1 ht).1, hzero e.1 ht⟩
  · intro made hmade
    rw [hcalls made hmade]
    rfl

theorem decrements (h : Sound c) (hheld : 0 < (c.place e.1).held)
    (hcode : code careful e.1 e.2 c.shared (c.place e.1) =
      (c.shared.after e.1 .decrement, (c.place e.1).after c.shared .decrement)) :
    Sound (step (code careful) c e) := by
  have hcount := h.count
  have hle := le_load Place.held c.place e.1
  have hsub : (c.shared.refCount - 1).toNat = c.shared.refCount.toNat - 1 :=
    UInt16.toNat_sub_of_le _ _ (UInt16.le_iff_toNat_le.mpr (by change 1 ≤ _; omega))
  have hnone : ∀ t, ¬ (c.place t).drained := by
    intro t ht
    exact Nat.ne_of_gt hheld (h.zero_iff.mp (h.drained t ht).2 e.1)
  refine h.of_step hcode ?_ rfl ?_ ?_ nofun
  · change (c.shared.refCount - 1).toNat + (c.place e.1).held =
      c.shared.refCount.toNat + ((c.place e.1).held - 1)
    omega
  · exact fun t ht => absurd ht (hnone t)
  · exact fun ht => absurd ht (hnone e.1)

theorem locks (h : Sound c)
    (hcode : code careful e.1 e.2 c.shared (c.place e.1) =
      (c.shared.after e.1 .lock, (c.place e.1).after c.shared .lock)) :
    Sound (step (code careful) c e) := by
  have hone := h.lock
  refine h.of_step hcode rfl ?_ (fun t ht => (h.drained t ht).2) ?_ nofun
  · change ((c.place e.1).closes || decide (c.shared.lock ≠ locked)).toNat + 0 =
      (c.place e.1).closer + c.shared.lock.toNat
    by_cases hlock : c.shared.lock = locked
    · rw [hlock, decide_eq_false (not_not.mpr rfl), Bool.or_false]
      rfl
    · have hopen : (c.place e.1).closes = false :=
        Bool.eq_false_iff.mpr fun hcloses => hlock (h.locked_of_closes hcloses)
      have hnat : c.shared.lock.toNat ≠ 0 := fun hnat => hlock (UInt16.toNat_inj.mp hnat)
      rw [Place.closer, hopen, decide_eq_true hlock]
      change 1 + 0 = 0 + c.shared.lock.toNat
      omega
  · intro ht
    obtain ⟨hcloses, hnone⟩ := h.drained e.1 ht
    refine ⟨?_, hnone⟩
    change ((c.place e.1).closes || _) = true
    rw [hcloses, Bool.true_or]

theorem unlocks (h : Sound c) (hcloses : (c.place e.1).closes)
    (hcode : code careful e.1 e.2 c.shared (c.place e.1) =
      (c.shared.after e.1 .unlock, (c.place e.1).after c.shared .unlock)) :
    Sound (step (code careful) c e) := by
  refine h.of_step hcode rfl ?_ (fun t ht => (h.drained t ht).2) nofun nofun
  rw [h.locked_of_closes hcloses, Place.closer, Place.closer, hcloses]
  rfl

theorem looks (h : Sound c) {doing : Doing}
    (hcode : code careful e.1 e.2 c.shared (c.place e.1) =
      (c.shared.after e.1 .refCount, { c.place e.1 with
        drained := (c.place e.1).drained || (c.place e.1).closes && c.shared.refCount = 0
        doing }))
    (hcalls : ∀ made, doing.call = some made → made = .waitZeroRef) :
    Sound (step (code careful) c e) := by
  refine h.of_step hcode rfl rfl (fun t ht => (h.drained t ht).2) ?_ ?_
  · change ((c.place e.1).drained || (c.place e.1).closes && decide (c.shared.refCount = 0)) =
      true → _
    rw [Bool.or_eq_true, Bool.and_eq_true, decide_eq_true_iff]
    exact fun ht => ht.elim (h.drained e.1) id
  · intro made hmade
    rw [hcalls made hmade]
    rfl

theorem sound_step (h : Sound c) (hcurrent : (c.place e.1).Current e.1 c.shared)
    (hfits : Fits (step (code careful) c e)) :
    Sound (step (code careful) c e) := by
  obtain ⟨made, hmade, -, hcode⟩ | ⟨syncLock, doing, hcode, -, hcalls⟩ := code_cases hcurrent
  · have hmay := h.calls e.1 made hmade
    cases made with
    | tryIncrement => exact h.increments hfits hcode nofun
    | increment => exact h.increments hfits hcode fun made hmade => (leaving_call hmade).1
    | decrement => exact h.decrements (of_decide_eq_true hmay) hcode
    | lock => exact h.locks hcode
    | unlock => exact h.unlocks hmay hcode
    | refCount => exact h.looks hcode nofun
    | waitZeroRef => exact h.looks hcode fun made hmade => (leaving_call hmade).1
  · refine h.of_step hcode rfl rfl (fun t ht => (h.drained t ht).2) (h.drained e.1)
      ?_
    intro made hmade
    exact (hcalls made hmade).elim (h.calls e.1 made) id

end Sound

theorem sound_of_reaches [DecidableEq τ] {c : Threads τ (Words τ) Place}
    (hc : ReachesWithin (code careful) Fits new c) : Sound c :=
  hc.invariant Sound sound_new fun _ e hc hfits h =>
    h.sound_step (current_of_reaches hc e.1) hfits

/-- In every interleaving the count is that of the references held; one thread has locked the count
or none has, and the lock shows which; and from when that one finds the count 0 until it unlocks,
nobody holds a reference. -/
theorem excludes_references [DecidableEq τ] {c : Threads τ (Words τ) Place}
    (hc : ReachesWithin (code careful) Fits new c) :
    c.shared.refCount.toNat = load Place.held c.place ∧
    (∀ t u, (c.place t).closes → (c.place u).closes → t = u) ∧
    (c.shared.lock = locked ↔ ∃ t, (c.place t).closes) ∧
    ∀ t, (c.place t).drained → (c.place t).closes ∧ ∀ u, (c.place u).held = 0 := by
  have h := sound_of_reaches hc
  have hone := h.lock
  refine ⟨h.count, ?_, ⟨?_, fun ⟨t, ht⟩ => h.locked_of_closes ht⟩, ?_⟩
  · intro t u ht hu
    by_contra hne
    have hpair := pair_le_load Place.closer c.place hne
    simp only [Place.closer, ht, hu, Bool.toNat_true] at hpair
    omega
  · intro hlocked
    by_contra hnone
    rw [(load_eq_zero Place.closer c.place).mpr, hlocked] at hone
    · cases hone
    · intro t
      have hopen : (c.place t).closes = false := Bool.eq_false_iff.mpr fun ht => hnone ⟨t, ht⟩
      rw [Place.closer, hopen]
      rfl
  · intro t ht
    obtain ⟨hcloses, hnone⟩ := h.drained t ht
    exact ⟨hcloses, h.zero_iff.mp hnone⟩

/-- While one of three threads holds a reference another one locks the count, which turns away
the third; once the reference is dropped, it finds the count 0. -/
theorem excludes_references_three :
    ∃ c : Threads (Fin 3) (Words (Fin 3)) Place, ReachesWithin (code careful) Fits new c ∧
      (c.place 1).drained = true ∧ ∀ u, (c.place u).held = 0 := by
  let calls (t : Fin 3) (call : Call) (n : ℕ) := List.replicate n (t, call)
  let c : Threads (Fin 3) (Words (Fin 3)) Place := run (code careful) new
    (calls 0 .increment 6 ++ calls 1 .lock 5 ++ calls 2 .tryIncrement 6 ++
      calls 0 .decrement 5 ++ calls 1 .waitZeroRef 4)
  have hc : ReachesWithin (code careful) Fits new c := ⟨_, rfl, by decide⟩
  have hdrained : (c.place 1).drained = true := by decide
  obtain ⟨-, -, -, hexcludes⟩ := excludes_references hc
  exact ⟨c, hc, hdrained, (hexcludes 1 hdrained).2⟩

end Careful

end CLockingRefCountLite
end TestCodes.TestUnits
