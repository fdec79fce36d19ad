import TestCodes.Lib.Threads

/-! `CReaderWriterLock_NS_RP`: a reader-writer lock in one word, which counts the readers by
twos and has the writer in its lowest bit. Every interlocked operation and every look at the
word is a step of its own. -/
namespace TestCodes.TestUnits

open Threads

inductive LockCall
  | readLock
  | writeLock
  deriving DecidableEq

namespace CReaderWriterLock_NS_RP

def writerActiveFlag : UInt32 := 0x1
def readerCountInc : UInt32 := 0x2

/-- Where a thread is: counted as a reader and waiting for the writer to end, waiting for the
word to be 0, or with the lock. -/
inductive Place
  | outside
  | counted
  | reading
  | wanting
  | writing
  deriving DecidableEq

variable {τ : Type*}

def code (_ : τ) (call : LockCall) (lock : UInt32) : Place → UInt32 × Place
  | .outside =>
      match call with
      | .readLock => (lock + readerCountInc, .counted)
      | .writeLock => (lock, .wanting)
  | .counted => (lock, if lock &&& writerActiveFlag ≠ 0 then .counted else .reading)
  | .wanting => if lock = 0 then (writerActiveFlag, .writing) else (lock, .wanting)
  | .reading => (lock - readerCountInc, .outside)
  | .writing => (lock - writerActiveFlag, .outside)

def new : Threads τ UInt32 Place := ⟨0, fun _ => .outside⟩

def Place.reader : Place → ℕ
  | .counted | .reading => 1
  | _ => 0

def Place.writer : Place → ℕ
  | .writing => 1
  | _ => 0

variable [Fintype τ]

/-- The word counts the readers and the writer, and the writer is alone with the lock. -/
structure Counted (c : Threads τ UInt32 Place) : Prop where
  lock : c.shared.toNat = 2 * load Place.reader c.place + load Place.writer c.place
  writers : load Place.writer c.place ≤ 1
  readers : ∀ t u, c.place t = .writing → c.place u ≠ .reading

theorem counted_new : Counted (new : Threads τ UInt32 Place) := by
  have hr : load Place.reader (new : Threads τ UInt32 Place).place = 0 :=
    (load_eq_zero _ _).mpr fun _ => rfl
  have hw : load Place.writer (new : Threads τ UInt32 Place).place = 0 :=
    (load_eq_zero _ _).mpr fun _ => rfl
  refine ⟨?_, ?_, ?_⟩
  · rw [hr, hw]
    rfl
  · rw [hw]
    exact Nat.zero_le 1
  · intro t u ht
    cases ht

namespace Counted
variable {c : Threads τ UInt32 Place}

theorem fits (hcard : Fintype.card τ < 2 ^ 31) (place : τ → Place) :
    2 * load Place.reader place + load Place.writer place < 2 ^ 32 := by
  have hle : ∀ l : Place, l.reader + l.writer ≤ 1 := fun l => by cases l <;> decide
  have hsum := load_le (fun l => l.reader + l.writer) place 1 fun t => hle (place t)
  rw [load_add] at hsum
  omega

theorem flag_iff (h : Counted c) :
    c.shared &&& writerActiveFlag ≠ 0 ↔ load Place.writer c.place = 1 := by
  have hword := h.lock
  have hone := h.writers
  rw [ne_eq, ← UInt32.toNat_inj, UInt32.toNat_and]
  change ¬ c.shared.toNat &&& 1 = 0 ↔ _
  rw [Nat.and_one_is_mod]
  omega

theorem zero_iff (h : Counted c) : c.shared = 0 ↔
    load Place.reader c.place = 0 ∧ load Place.writer c.place = 0 := by
  have hword := h.lock
  rw [← UInt32.toNat_inj]
  change c.shared.toNat = 0 ↔ _
  omega

theorem no_writer_iff (h : Counted c) :
    load Place.writer c.place ≠ 1 ↔ ∀ u, c.place u ≠ .writing := by
  have hone := h.writers
  constructor
  · intro hne u hu
    have hu' := le_load Place.writer c.place u
    rw [hu] at hu'
    exact hne (Nat.le_antisymm hone hu')
  · intro hnone
    rw [(load_eq_zero Place.writer c.place).mpr]
    · decide
    · intro u
      have hu := hnone u
      cases hplace : c.place u with
      | writing => exact absurd hplace hu
      | outside | counted | reading | wanting => rfl

theorem free_iff : load Place.reader c.place = 0 ∧ load Place.writer c.place = 0 ↔
    ∀ u, c.place u = .outside ∨ c.place u = .wanting := by
  rw [load_eq_zero, load_eq_zero, ← forall_and]
  apply forall_congr'
  intro u
  cases c.place u <;> simp [Place.reader, Place.writer]

variable [DecidableEq τ]

theorem step_lock (hcard : Fintype.card τ < 2 ^ 31) (h : Counted c) (e : τ × LockCall) :
    (step code c e).shared.toNat = 2 * load Place.reader (step code c e).place +
      load Place.writer (step code c e).place := by
  obtain ⟨t, call⟩ := e
  have hword := h.lock
  have hbefore := fits hcard c.place
  have hafter := fits hcard (step code c (t, call)).place
  have hr := load_update Place.reader c.place t (code t call c.shared (c.place t)).2
  have hw := load_update Place.writer c.place t (code t call c.shared (c.place t)).2
  rw [step_place] at hafter ⊢
  rw [step_shared]
  dsimp only at hafter ⊢
  generalize Function.update c.place t (code t call c.shared (c.place t)).2 = place at *
  cases hplace : c.place t with
  | outside =>
      cases call with
      | readLock =>
          simp only [code, hplace, Place.reader, Place.writer, UInt32.toNat_add] at hr hw ⊢
          change (c.shared.toNat + 2) % 2 ^ 32 = _
          omega
      | writeLock =>
          simp only [code, hplace, Place.reader, Place.writer] at hr hw ⊢
          omega
  | counted =>
      by_cases hflag : c.shared &&& writerActiveFlag ≠ 0
      · simp only [code, hplace, if_pos hflag, Place.reader, Place.writer] at hr hw ⊢
        omega
      · simp only [code, hplace, if_neg hflag, Place.reader, Place.writer] at hr hw ⊢
        omega
  | wanting =>
      by_cases hzero : c.shared = 0
      · obtain ⟨hr0, hw0⟩ := h.zero_iff.mp hzero
        simp only [code, hplace, if_pos hzero, Place.reader, Place.writer] at hr hw ⊢
        change 1 = _
        omega
      · simp only [code, hplace, if_neg hzero, Place.reader, Place.writer] at hr hw ⊢
        omega
  | reading =>
      have hself := le_load Place.reader c.place t
      simp only [code, hplace, Place.reader, Place.writer] at hr hw hself ⊢
      rw [UInt32.toNat_sub_of_le]
      · change c.shared.toNat - 2 = _
        omega
      · change 2 ≤ c.shared.toNat
        omega
  | writing =>
      have hself := le_load Place.writer c.place t
      simp only [code, hplace, Place.reader, Place.writer] at hr hw hself ⊢
      rw [UInt32.toNat_sub_of_le]
      · change c.shared.toNat - 1 = _
        omega
      · change 1 ≤ c.shared.toNat
        omega

omit [Fintype τ] [DecidableEq τ] in
theorem code_writing_iff (t : τ) (call : LockCall) (lock : UInt32) (l : Place) :
    (code t call lock l).2 = .writing ↔ l = .wanting ∧ lock = 0 := by
  cases l with
  | outside => cases call <;> simp [code]
  | counted => simp only [code]; split <;> simp
  | wanting => simp only [code]; split <;> simp [*]
  | reading | writing => simp [code]

omit [Fintype τ] [DecidableEq τ] in
theorem code_reading_iff (t : τ) (call : LockCall) (lock : UInt32) (l : Place) :
    (code t call lock l).2 = .reading ↔ l = .counted ∧ ¬ lock &&& writerActiveFlag ≠ 0 := by
  cases l with
  | outside => cases call <;> simp [code]
  | counted => simp only [code]; split <;> simp [*]
  | wanting => simp only [code]; split <;> simp
  | reading | writing => simp [code]

theorem step_writers (h : Counted c) (e : τ × LockCall) :
    load Place.writer (step code c e).place ≤ 1 := by
  have hw := load_update Place.writer c.place e.1 (code e.1 e.2 c.shared (c.place e.1)).2
  have hone := h.writers
  rw [step_place]
  cases hnew : (code e.1 e.2 c.shared (c.place e.1)).2 with
  | writing =>
      obtain ⟨-, hzero⟩ := (code_writing_iff e.1 e.2 c.shared (c.place e.1)).mp hnew
      have hnone := (h.zero_iff.mp hzero).2
      rw [hnew, hnone] at hw
      change _ = 0 + 1 at hw
      omega
  | outside | counted | reading | wanting =>
      rw [hnew] at hw
      change _ = _ + 0 at hw
      omega

theorem step_readers (h : Counted c) (e : τ × LockCall) (t u : τ)
    (ht : (step code c e).place t = .writing) : (step code c e).place u ≠ .reading := by
  intro hu
  by_cases hte : t = e.1
  · subst hte
    rw [step_place_self] at ht
    obtain ⟨-, hzero⟩ := (code_writing_iff e.1 e.2 c.shared (c.place e.1)).mp ht
    have hnone := (load_eq_zero Place.reader c.place).mp (h.zero_iff.mp hzero).1 u
    by_cases hue : u = e.1
    · rw [hue, step_place_self, ht] at hu
      cases hu
    · rw [step_place_other code c hue] at hu
      rw [hu] at hnone
      cases hnone
  · rw [step_place_other code c hte] at ht
    by_cases hue : u = e.1
    · rw [hue, step_place_self] at hu
      obtain ⟨-, hclear⟩ := (code_reading_iff e.1 e.2 c.shared (c.place e.1)).mp hu
      exact h.no_writer_iff.mp (fun hone => hclear (h.flag_iff.mpr hone)) t ht
    · rw [step_place_other code c hue] at hu
      exact h.readers t u ht hu

theorem step (hcard : Fintype.card τ < 2 ^ 31) (h : Counted c) (e : τ × LockCall) :
    Counted (step code c e) :=
  ⟨h.step_lock hcard e, h.step_writers e, h.step_readers e⟩

theorem excludes (h : Counted c) : ReadersWriter (· = .reading) (· = .writing) c.place := by
  rintro t u ht (hu | hu)
  · exact absurd hu (h.readers t u ht)
  · by_contra hne
    have hpair := pair_le_load Place.writer c.place hne
    rw [ht, hu] at hpair
    exact absurd (hpair.trans h.writers) (by decide)

end Counted

theorem counted_of_reaches [DecidableEq τ] (hcard : Fintype.card τ < 2 ^ 31)
    {c : Threads τ UInt32 Place} (hc : Reaches code new c) : Counted c :=
  hc.invariant Counted counted_new fun _ e _ h => h.step hcard e

/-- In every interleaving of fewer than 2^31 threads a writer is alone with the lock; a reader
that looks gets it exactly while there is no writer, and a writer that looks exactly while
nobody else is counted. -/
theorem admits_unless_writing [DecidableEq τ] (hcard : Fintype.card τ < 2 ^ 31)
    {c : Threads τ UInt32 Place} (hc : Reaches code new c) :
    ReadersWriter (· = .reading) (· = .writing) c.place ∧ ∀ t call,
      (c.place t = .counted → ((step code c (t, call)).place t = .reading ↔
        ∀ u, c.place u ≠ .writing)) ∧
      (c.place t = .wanting → ((step code c (t, call)).place t = .writing ↔
        ∀ u, c.place u = .outside ∨ c.place u = .wanting)) := by
  have h := counted_of_reaches hcard hc
  refine ⟨h.excludes, fun t call => ⟨fun ht => ?_, fun ht => ?_⟩⟩
  · rw [step_place_self (e := (t, call)), Counted.code_reading_iff, h.flag_iff, ← ne_eq,
      h.no_writer_iff]
    exact and_iff_right ht
  · rw [step_place_self (e := (t, call)), Counted.code_writing_iff, h.zero_iff, Counted.free_iff]
    exact and_iff_right ht

/-- A writer that waits for a reader to end. -/
theorem admits_unless_writing_after_reader :
    ∃ c : Threads Bool UInt32 Place, Reaches code new c ∧ c.place true = .wanting ∧
      c.place false = .reading ∧ ¬ (step code c (true, .writeLock)).place true = .writing := by
  let c : Threads Bool UInt32 Place :=
    run code new [(false, .readLock), (false, .readLock), (true, .writeLock)]
  have hc : Reaches code new c := ⟨_, rfl⟩
  refine ⟨c, hc, by decide, by decide, ?_⟩
  rw [((admits_unless_writing (by decide) hc).2 true .writeLock).2 (by decide)]
  decide

end CReaderWriterLock_NS_RP
end TestCodes.TestUnits
