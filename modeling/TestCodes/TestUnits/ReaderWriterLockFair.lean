import TestCodes.Lib.Ahead
import TestCodes.TestUnits.CritSectLite
import TestCodes.TestUnits.ReaderWriterLockRP

/-! `CReaderWriterLock_NS_FAIR`: two words that count the requests and the completions, the
writers in the lower half of each and the readers in the upper. A count is cleared before it is
added to when it has come to its top bit, so that it does not run into the other half. -/
namespace TestCodes.TestUnits

open Threads

namespace CReaderWriterLock_NS_FAIR

def readerCountInc : UInt32 := 0x10000
def writerCountInc : UInt32 := 0x1
def writerMask : UInt32 := 0xffff
def writerTopMask : UInt32 := 0x8000
def readerTopMask : UInt32 := 0x80000000

def topMask : LockCall → UInt32
  | .readLock => readerTopMask
  | .writeLock => writerTopMask

def countInc : LockCall → UInt32
  | .readLock => readerCountInc
  | .writeLock => writerCountInc

def compared : LockCall → UInt32 → UInt32
  | .readLock, word => word &&& writerMask
  | .writeLock, word => word

inductive Ptr
  | requests
  | completions
  deriving DecidableEq

/-- Where a thread is: in `InterlockedFetchClearAdd` or `InterlockedClearAdd`, for the critical
section, in it, after the clearing and after the adding; in the loop of its call, or with the
lock. -/
inductive Place
  | outside
  | entering (ptr : Ptr) (lock : LockCall)
  | entered (ptr : Ptr) (lock : LockCall)
  | cleared (ptr : Ptr) (lock : LockCall) (retval : UInt32)
  | added (ptr : Ptr) (lock : LockCall) (retval : UInt32)
  | waiting (lock : LockCall) (prev : UInt32)
  | inside (lock : LockCall)
  deriving DecidableEq

/-- The critical section, the words, and the threads that have requested the lock and not
completed, in the order of their requests. -/
structure Words (τ : Type*) where
  cs : Bool
  requests : UInt32
  completions : UInt32
  line : List (τ × LockCall)

variable {τ : Type*}

def Words.read (s : Words τ) : Ptr → UInt32
  | .requests => s.requests
  | .completions => s.completions

def Words.write (s : Words τ) (word : UInt32) : Ptr → Words τ
  | .requests => { s with requests := word }
  | .completions => { s with completions := word }

def code [DecidableEq τ] (t : τ) (call : LockCall) (s : Words τ) : Place → Words τ × Place
  | .outside => (s, .entering .requests call)
  | .entering ptr lock =>
      if s.cs then (s, .entering ptr lock) else ({ s with cs := true }, .entered ptr lock)
  | .entered ptr lock =>
      (s.write (s.read ptr &&& ~~~ topMask lock) ptr, .cleared ptr lock (s.read ptr))
  | .cleared .requests lock retval =>
      ({ s with requests := s.requests + countInc lock, line := s.line ++ [(t, lock)] },
        .added .requests lock retval)
  | .cleared .completions lock retval =>
      ({ s with completions := s.completions + countInc lock, line := s.line.erase (t, lock) },
        .added .completions lock retval)
  | .added .requests lock retval =>
      ({ s with cs := false }, .waiting lock (compared lock retval))
  | .added .completions _ _ => ({ s with cs := false }, .outside)
  | .waiting lock prev =>
      (s, if compared lock s.completions ≠ prev then .waiting lock prev else .inside lock)
  | .inside lock => (s, .entering .completions lock)

def new : Threads τ (Words τ) Place := ⟨⟨false, 0, 0, []⟩, fun _ => .outside⟩

section CriticalSection

def Words.atCs (s : Words τ) : UInt32 := if s.cs then CCritSectLite.lockFlag else 0

def Place.atCs : Place → CCritSectLite.Place
  | .outside | .waiting _ _ | .inside _ => .outside
  | .entering _ _ => .entering
  | .entered _ _ | .cleared _ _ _ | .added _ _ _ => .inside

variable [DecidableEq τ]

theorem code_simulates (t : τ) (call : LockCall) (s : Words τ) (l : Place) :
    (code t call s l).1.atCs = s.atCs ∧ (code t call s l).2.atCs = l.atCs ∨
      ∃ call', CCritSectLite.code t call' s.atCs l.atCs =
        ((code t call s l).1.atCs, (code t call s l).2.atCs) := by
  cases l with
  | outside | inside => exact .inr ⟨.enter, rfl⟩
  | entering ptr lock =>
      refine .inr ⟨.enter, ?_⟩
      obtain ⟨cs, requests, completions, line⟩ := s
      cases cs <;> rfl
  | entered ptr lock => cases ptr <;> exact .inl ⟨rfl, rfl⟩
  | cleared ptr lock retval => cases ptr <;> exact .inl ⟨rfl, rfl⟩
  | added ptr lock retval => cases ptr <;> exact .inr ⟨.enter, rfl⟩
  | waiting lock prev =>
      refine .inl ⟨rfl, ?_⟩
      simp only [code, apply_ite Place.atCs]
      exact ite_self _

/-- One thread at a time is in the critical section. -/
theorem guarded_of_reaches {c : Threads τ (Words τ) Place} (hc : Reaches code new c) :
    CCritSectLite.Guarded (view Words.atCs Place.atCs c) :=
  CCritSectLite.guarded_of_reaches (hc.simulates code_simulates)

end CriticalSection

section Counts

/-- What half of a word shows of a count: from 1 to 0x8000, and 0 only before the first. -/
def half (n : ℕ) : ℕ := if n = 0 then 0 else (n - 1) % 0x8000 + 1

/-- Counting on: the top bit is cleared, and then 1 is added. -/
theorem half_succ (n : ℕ) : half (n + 1) = half n % 0x8000 + 1 := by
  unfold half
  split <;> split <;> omega

theorem half_eq_iff {n d : ℕ} (hd : d < 0x8000) : half n = half (n + d) ↔ d = 0 := by
  unfold half
  split <;> split <;> omega

/-- A half that is just cleared is not taken for a later count. -/
theorem half_cleared_ne {n d : ℕ} (hpos : 0 < d) (hd : d < 0x8000) :
    half n % 0x8000 ≠ half (n + d) := by
  unfold half
  split <;> split <;> omega

/-- The word with these two halves. -/
structure Halves (word : UInt32) (lower upper : ℕ) : Prop where
  word_eq : word.toNat = lower + 0x10000 * upper
  lower_le : lower ≤ 0x8000
  upper_le : upper ≤ 0x8000

namespace Halves
variable {word word' : UInt32} {lower lower' upper upper' : ℕ}

theorem zero : Halves 0 (half 0) (half 0) := ⟨rfl, by decide, by decide⟩

theorem ext_iff (h : Halves word lower upper) (h' : Halves word' lower' upper') :
    word = word' ↔ lower = lower' ∧ upper = upper' := by
  have hw := h.word_eq
  have hw' := h'.word_eq
  have hl := h.lower_le
  have hl' := h'.lower_le
  rw [← UInt32.toNat_inj]
  omega

theorem writers (h : Halves word lower upper) : (word &&& writerMask).toNat = lower := by
  have hword := h.word_eq
  have hlower := h.lower_le
  rw [UInt32.toNat_and]
  change word.toNat &&& (2 ^ 16 - 1) = lower
  rw [Nat.and_two_pow_sub_one_eq_mod]
  omega

theorem clear_upper (h : Halves word lower upper) :
    Halves (word &&& ~~~ readerTopMask) lower (upper % 0x8000) := by
  have hword := h.word_eq
  have hlower := h.lower_le
  have hupper := h.upper_le
  refine ⟨?_, hlower, by omega⟩
  rw [UInt32.toNat_and]
  change word.toNat &&& (2 ^ 31 - 1) = _
  rw [Nat.and_two_pow_sub_one_eq_mod]
  omega

theorem clear_lower (h : Halves word lower upper) :
    Halves (word &&& ~~~ writerTopMask) (lower % 0x8000) upper := by
  have hword := h.word_eq
  have hlower := h.lower_le
  have hupper := h.upper_le
  refine ⟨?_, by omega, hupper⟩
  rw [UInt32.toNat_and]
  change word.toNat &&& 0xffff7fff = _
  have hhigh : (word.toNat &&& 0xffff7fff) / 2 ^ 16 = word.toNat / 2 ^ 16 &&& (2 ^ 16 - 1) :=
    Nat.and_div_two_pow
  have hlow : (word.toNat &&& 0xffff7fff) % 2 ^ 16 = word.toNat % 2 ^ 16 &&& (2 ^ 15 - 1) :=
    Nat.and_mod_two_pow
  rw [Nat.and_two_pow_sub_one_eq_mod] at hhigh hlow
  omega

theorem add_lower (h : Halves word (lower % 0x8000) upper) :
    Halves (word + writerCountInc) (lower % 0x8000 + 1) upper := by
  have hword := h.word_eq
  have hupper := h.upper_le
  refine ⟨?_, by omega, hupper⟩
  rw [UInt32.toNat_add]
  change (word.toNat + 1) % 2 ^ 32 = _
  omega

theorem add_upper (h : Halves word lower (upper % 0x8000)) :
    Halves (word + readerCountInc) lower (upper % 0x8000 + 1) := by
  have hword := h.word_eq
  have hlower := h.lower_le
  refine ⟨?_, hlower, by omega⟩
  rw [UInt32.toNat_add]
  change (word.toNat + 0x10000) % 2 ^ 32 = _
  omega

end Halves
end Counts

section Words

/-- The word shows this much of the writers and of the readers. -/
def Shows (shown : LockCall → ℕ) (word : UInt32) : Prop :=
  Halves word (shown .writeLock) (shown .readLock)

/-- The word of a thread that counts, when the count is cleared and not yet added to. -/
def clearing (shown : LockCall → ℕ) (lock : LockCall) : LockCall → ℕ :=
  Function.update shown lock (shown lock % 0x8000)

/-- What a call remembers of what the requests showed. -/
def Remembers (shown : LockCall → ℕ) (word : UInt32) : LockCall → Prop
  | .readLock => word.toNat = shown .writeLock
  | .writeLock => Shows shown word

def counted (n : LockCall → ℕ) (lock : LockCall) : ℕ := half (n lock)

variable {shown shown' n : LockCall → ℕ} {word word' : UInt32} {lock : LockCall}

theorem Shows.clear (h : Shows shown word) :
    Shows (clearing shown lock) (word &&& ~~~ topMask lock) := by
  cases lock with
  | readLock => exact h.clear_upper
  | writeLock => exact h.clear_lower

theorem Shows.add (h : Shows (clearing (counted n) lock) word) :
    Shows (counted (Function.update n lock (n lock + 1))) (word + countInc lock) := by
  have hself : counted (Function.update n lock (n lock + 1)) lock =
      counted n lock % 0x8000 + 1 := by
    rw [counted, Function.update_self, half_succ]
    rfl
  cases lock with
  | readLock =>
      have hadd := Halves.add_upper h
      rw [← hself] at hadd
      exact hadd
  | writeLock =>
      have hadd := Halves.add_lower h
      rw [← hself] at hadd
      exact hadd

theorem Shows.remembers (h : Shows shown word) : Remembers shown (compared lock word) lock := by
  cases lock with
  | readLock => exact h.writers
  | writeLock => exact h

theorem Shows.compared_eq_iff (h : Shows shown word) (h' : Remembers shown' word' lock) :
    compared lock word = word' ↔ shown .writeLock = shown' .writeLock ∧
      (lock = .writeLock → shown .readLock = shown' .readLock) := by
  cases lock with
  | readLock =>
      rw [← UInt32.toNat_inj, compared, h.writers, h']
      simp
  | writeLock =>
      rw [compared, h.ext_iff h']
      simp

end Words

section Line

def inLine (line : List (τ × LockCall)) (lock : LockCall) : ℕ := line.countP (·.2 = lock)

def total (n : LockCall → ℕ) (line : List (τ × LockCall)) (lock : LockCall) : ℕ :=
  n lock + inLine line lock

theorem total_append (n : LockCall → ℕ) (line : List (τ × LockCall)) (t : τ) (lock : LockCall) :
    total n (line ++ [(t, lock)]) =
      Function.update (total n line) lock (total n line lock + 1) := by
  funext k
  by_cases hk : k = lock
  · subst hk
    rw [Function.update_self, total, inLine, List.countP_append]
    simp [total, inLine, Nat.add_assoc]
  · rw [Function.update_of_ne hk, total, inLine, List.countP_append]
    simp [total, inLine, Ne.symm hk]

variable [DecidableEq τ] {n : LockCall → ℕ} {line : List (τ × LockCall)} {t u : τ}
  {lock lock' : LockCall}

theorem inLine_erase_of_ne (hlock : lock ≠ lock') :
    inLine (line.erase (t, lock)) lock' = inLine line lock' := by
  by_cases hmem : (t, lock) ∈ line
  · have hperm := (List.perm_cons_erase hmem).countP_eq (·.2 = lock')
    simpa [inLine, hlock] using hperm.symm
  · rw [List.erase_of_not_mem hmem]

/-- Who completes is counted with the completions instead of in the line. -/
theorem total_erase (hmem : (t, lock) ∈ line) :
    total (Function.update n lock (n lock + 1)) (line.erase (t, lock)) = total n line := by
  funext k
  by_cases hk : k = lock
  · subst hk
    have hperm := (List.perm_cons_erase hmem).countP_eq (·.2 = k)
    rw [List.countP_cons_of_pos (by simp)] at hperm
    rw [total, total, Function.update_self, inLine, inLine, hperm]
    omega
  · rw [total, total, Function.update_of_ne hk, inLine_erase_of_ne (Ne.symm hk)]

/-- Nobody ahead in the line is in the way: nobody at all for a writer, no writer for a
reader. -/
def Served (line : List (τ × LockCall)) (t : τ) (lock : LockCall) : Prop :=
  ∀ e ∈ ahead Prod.fst line t, lock = .readLock ∧ e.2 = .readLock

instance : Decidable (Served line t lock) :=
  inferInstanceAs (Decidable (∀ e ∈ ahead Prod.fst line t, lock = .readLock ∧ e.2 = .readLock))

theorem served_iff : Served line t lock ↔ inLine (ahead Prod.fst line t) .writeLock = 0 ∧
    (lock = .writeLock → inLine (ahead Prod.fst line t) .readLock = 0) := by
  simp only [Served, inLine, List.countP_eq_zero, decide_eq_true_eq]
  constructor
  · intro h
    refine ⟨fun e he hw => ?_, fun hlock e he _ => ?_⟩
    · have hr := (h e he).2
      rw [hw] at hr
      cases hr
    · have hr := (h e he).1
      rw [hlock] at hr
      cases hr
  · rintro ⟨hw, hr⟩ e he
    cases hkind : e.2 with
    | writeLock => exact absurd hkind (hw e he)
    | readLock =>
        cases lock with
        | readLock => exact ⟨rfl, rfl⟩
        | writeLock => exact absurd hkind (hr rfl e he)

/-- Who is served is ahead of everyone that it is in the way of. -/
theorem Served.ahead_of (hserved : Served line t lock) (hline : (line.map Prod.fst).Nodup)
    (ht : (t, lock) ∈ line) (hu : (u, lock') ∈ line) (hne : t ≠ u)
    (hway : lock = .writeLock ∨ lock' = .writeLock) :
    (t, lock) ∈ ahead Prod.fst line u := by
  rcases Ahead.total hline ht hu hne with hahead | hahead
  · exact hahead
  · obtain ⟨hread, hread'⟩ := hserved _ hahead
    rcases hway with rfl | rfl
    · cases hread
    · cases hread'

theorem Served.erase (h : Served line u lock') (hne : t ≠ u) :
    Served (line.erase (t, lock)) u lock' := by
  intro e he
  rw [Ahead.erase hne] at he
  exact h e (List.mem_of_mem_erase he)

/-- What is true of a thread where it is: it stands in the line from the adding to the requests
to the adding to the completions, remembers what was requested before, and is served from the
loop on. -/
def Placed (n : LockCall → ℕ) (line : List (τ × LockCall)) (t : τ) : Place → Prop
  | .outside | .entering .requests _ | .entered .requests _ | .cleared .requests _ _
  | .added .completions _ _ => t ∉ line.map Prod.fst
  | .added .requests lock retval => (t, lock) ∈ line ∧
      Remembers (counted (total n (ahead Prod.fst line t))) (compared lock retval) lock
  | .waiting lock prev => (t, lock) ∈ line ∧
      Remembers (counted (total n (ahead Prod.fst line t))) prev lock
  | .inside lock | .entering .completions lock | .entered .completions lock
  | .cleared .completions lock _ => (t, lock) ∈ line ∧ Served line t lock

end Line

/-- A word that counts, unless a thread has just cleared it. -/
structure Kept (place : τ → Place) (ptr : Ptr) (word : UInt32) (n : LockCall → ℕ) : Prop where
  cleared : ∀ t lock retval, place t = .cleared ptr lock retval →
    Shows (clearing (counted n) lock) word ∧ Shows (counted n) retval
  whole : (∀ t lock retval, place t ≠ .cleared ptr lock retval) → Shows (counted n) word

variable [DecidableEq τ]

/-- The requests count those in the line as well, the completions only those who have left it. -/
structure Lined (c : Threads τ (Words τ) Place) (n : LockCall → ℕ) : Prop where
  nodup : (c.shared.line.map Prod.fst).Nodup
  requests : Kept c.place .requests c.shared.requests (total n c.shared.line)
  completions : Kept c.place .completions c.shared.completions n
  placed : ∀ t, Placed n c.shared.line t (c.place t)

theorem lined_new : Lined (new : Threads τ (Words τ) Place) fun _ => 0 where
  nodup := List.nodup_nil
  requests := ⟨fun _ _ _ ht => (Place.noConfusion ht), fun _ => Halves.zero⟩
  completions := ⟨fun _ _ _ ht => (Place.noConfusion ht), fun _ => Halves.zero⟩
  placed := fun _ => List.not_mem_nil

section Steps
variable {c : Threads τ (Words τ) Place} {n : LockCall → ℕ} {e : τ × LockCall}
  {s : Words τ} {l : Place}

theorem Kept.unseen {ptr : Ptr} {word : UInt32} (h : Kept c.place ptr word n)
    (hcode : code e.1 e.2 c.shared (c.place e.1) = (s, l))
    (hbefore : ∀ lock retval, c.place e.1 ≠ .cleared ptr lock retval)
    (hafter : ∀ lock retval, l ≠ .cleared ptr lock retval) :
    Kept (step code c e).place ptr word n := by
  have hiff : ∀ t lock retval, (step code c e).place t = .cleared ptr lock retval ↔
      c.place t = .cleared ptr lock retval := by
    intro t lock retval
    by_cases ht : t = e.1
    · rw [ht, step_place_self, hcode]
      exact iff_of_false (hafter lock retval) (hbefore lock retval)
    · rw [step_place_other _ c ht]
  exact ⟨fun t lock retval ht => h.cleared t lock retval ((hiff t lock retval).mp ht),
    fun hnone => h.whole fun t lock retval ht => hnone t lock retval ((hiff t lock retval).mpr ht)⟩

theorem Lined.unseen (h : Lined c n) (hcode : code e.1 e.2 c.shared (c.place e.1) = (s, l))
    (hs : s = { c.shared with cs := s.cs })
    (hbefore : ∀ ptr lock retval, c.place e.1 ≠ .cleared ptr lock retval)
    (hafter : ∀ ptr lock retval, l ≠ .cleared ptr lock retval)
    (hplaced : Placed n c.shared.line e.1 l) : Lined (step code c e) n := by
  have hshared : (step code c e).shared = { c.shared with cs := s.cs } := by
    rw [step_shared, hcode]
    exact hs
  refine ⟨?_, ?_, ?_, ?_⟩
  · rw [hshared]
    exact h.nodup
  · rw [hshared]
    exact h.requests.unseen hcode (hbefore .requests) (hafter .requests)
  · rw [hshared]
    exact h.completions.unseen hcode (hbefore .completions) (hafter .completions)
  · rw [hshared]
    refine forall_step (P := Placed n c.shared.line) ?_ fun t _ => h.placed t
    rw [hcode]
    exact hplaced

omit [DecidableEq τ] in
theorem cleared_alone (hguard : CCritSectLite.Guarded (view Words.atCs Place.atCs c))
    (he : (c.place e.1).atCs = .inside) {t : τ} {ptr : Ptr} {lock : LockCall} {retval : UInt32}
    (ht : c.place t = .cleared ptr lock retval) : t = e.1 := by
  apply hguard.unique t e.1 ?_ he
  rw [view_place, ht]
  rfl

theorem Kept.clear {ptr : Ptr} {lock : LockCall} {word : UInt32} (h : Kept c.place ptr word n)
    (hguard : CCritSectLite.Guarded (view Words.atCs Place.atCs c))
    (he : c.place e.1 = .entered ptr lock)
    (hself : (step code c e).place e.1 = .cleared ptr lock word) :
    Kept (step code c e).place ptr (word &&& ~~~ topMask lock) n := by
  have hin : (c.place e.1).atCs = .inside := by
    rw [he]
    rfl
  have hwhole : Shows (counted n) word := by
    apply h.whole
    intro t lock' retval ht
    rw [cleared_alone hguard hin ht, he] at ht
    cases ht
  constructor
  · intro t lock' retval ht
    by_cases hte : t = e.1
    · rw [hte, hself] at ht
      cases ht
      exact ⟨hwhole.clear, hwhole⟩
    · rw [step_place_other _ c hte] at ht
      exact absurd (cleared_alone hguard hin ht) hte
  · intro hnone
    exact absurd hself (hnone e.1 lock word)

theorem Kept.add {ptr : Ptr} {lock : LockCall} {retval word : UInt32}
    (h : Kept c.place ptr word n)
    (hguard : CCritSectLite.Guarded (view Words.atCs Place.atCs c))
    (he : c.place e.1 = .cleared ptr lock retval)
    (hself : ∀ ptr' lock' retval', (step code c e).place e.1 ≠ .cleared ptr' lock' retval') :
    Kept (step code c e).place ptr (word + countInc lock)
      (Function.update n lock (n lock + 1)) := by
  have hin : (c.place e.1).atCs = .inside := by
    rw [he]
    rfl
  constructor
  · intro t lock' retval' ht
    by_cases hte : t = e.1
    · rw [hte] at ht
      exact absurd ht (hself ptr lock' retval')
    · rw [step_place_other _ c hte] at ht
      exact absurd (cleared_alone hguard hin ht) hte
  · intro _
    exact (h.cleared e.1 lock retval he).1.add

theorem Lined.clear (h : Lined c n)
    (hguard : CCritSectLite.Guarded (view Words.atCs Place.atCs c)) {ptr : Ptr} {lock : LockCall}
    (he : c.place e.1 = .entered ptr lock) : Lined (step code c e) n := by
  have hcode : code e.1 e.2 c.shared (c.place e.1) = (c.shared.write
      (c.shared.read ptr &&& ~~~ topMask lock) ptr, .cleared ptr lock (c.shared.read ptr)) := by
    rw [he]
    rfl
  have hself : (step code c e).place e.1 = .cleared ptr lock (c.shared.read ptr) := by
    rw [step_place_self, hcode]
  have hline : (step code c e).shared.line = c.shared.line := by
    rw [step_shared, hcode]
    cases ptr <;> rfl
  have hbefore : ∀ ptr' lock' retval, c.place e.1 ≠ .cleared ptr' lock' retval := by
    intro ptr' lock' retval
    rw [he]
    exact Place.noConfusion
  refine ⟨?_, ?_, ?_, ?_⟩
  · rw [hline]
    exact h.nodup
  · rw [hline]
    cases ptr with
    | requests =>
        rw [step_shared, hcode]
        exact h.requests.clear hguard he hself
    | completions =>
        rw [step_shared, hcode]
        exact h.requests.unseen hcode (hbefore .requests) (by simp)
  · cases ptr with
    | requests =>
        rw [step_shared, hcode]
        exact h.completions.unseen hcode (hbefore .completions) (by simp)
    | completions =>
        rw [step_shared, hcode]
        exact h.completions.clear hguard he hself
  · have hplaced := h.placed e.1
    rw [he] at hplaced
    rw [hline]
    refine forall_step (P := Placed n c.shared.line) ?_ fun t _ => h.placed t
    rw [hcode]
    cases ptr <;> exact hplaced

theorem Placed.append {line : List (τ × LockCall)} {t u : τ} {lock : LockCall} (hu : u ≠ t)
    (h : Placed n line u l) : Placed n (line ++ [(t, lock)]) u l := by
  have hin {lock' : LockCall} (hmem : (u, lock') ∈ line) :
      (u, lock') ∈ line ++ [(t, lock)] ∧
        ahead Prod.fst (line ++ [(t, lock)]) u = ahead Prod.fst line u :=
    ⟨List.mem_append_left _ hmem, Ahead.append_of_mem hmem _⟩
  have hout (hnot : u ∉ line.map Prod.fst) : u ∉ (line ++ [(t, lock)]).map Prod.fst := by
    simpa [hu] using hnot
  have hserved {lock' : LockCall} (h : (u, lock') ∈ line ∧ Served line u lock') :
      (u, lock') ∈ line ++ [(t, lock)] ∧ Served (line ++ [(t, lock)]) u lock' := by
    obtain ⟨hmem, hahead⟩ := hin h.1
    refine ⟨hmem, ?_⟩
    rw [Served, hahead]
    exact h.2
  cases l with
  | outside => exact hout h
  | entering ptr | entered ptr | cleared ptr =>
      cases ptr with
      | requests => exact hout h
      | completions => exact hserved h
  | added ptr =>
      cases ptr with
      | requests =>
          obtain ⟨hmem, hahead⟩ := hin h.1
          refine ⟨hmem, ?_⟩
          rw [hahead]
          exact h.2
      | completions => exact hout h
  | waiting =>
      obtain ⟨hmem, hahead⟩ := hin h.1
      refine ⟨hmem, ?_⟩
      rw [hahead]
      exact h.2
  | inside => exact hserved h

theorem Lined.request (h : Lined c n)
    (hguard : CCritSectLite.Guarded (view Words.atCs Place.atCs c)) {lock : LockCall}
    {retval : UInt32} (he : c.place e.1 = .cleared .requests lock retval) :
    Lined (step code c e) n := by
  have hcode : code e.1 e.2 c.shared (c.place e.1) = ({ c.shared with
      requests := c.shared.requests + countInc lock
      line := c.shared.line ++ [(e.1, lock)] }, .added .requests lock retval) := by
    rw [he]
    rfl
  have hself : (step code c e).place e.1 = .added .requests lock retval := by
    rw [step_place_self, hcode]
  have hnot : e.1 ∉ c.shared.line.map Prod.fst := by
    have hplaced := h.placed e.1
    rw [he] at hplaced
    exact hplaced
  refine ⟨?_, ?_, ?_, ?_⟩
  · rw [step_shared, hcode]
    exact Ahead.nodup_append h.nodup hnot
  · rw [step_shared, hcode]
    dsimp only
    rw [total_append]
    exact h.requests.add hguard he (by simp [hself])
  · rw [step_shared, hcode]
    exact h.completions.unseen hcode (by simp [he]) (by simp)
  · rw [step_shared, hcode]
    refine forall_step (P := Placed n (c.shared.line ++ [(e.1, lock)])) ?_
      fun t ht => (h.placed t).append ht
    rw [hcode]
    refine ⟨List.mem_append_right _ (List.mem_singleton_self _), ?_⟩
    rw [Ahead.append_self (b := (e.1, lock)) hnot rfl]
    exact (h.requests.cleared e.1 lock retval he).2.remembers

theorem Remembers.erase {line : List (τ × LockCall)} {t u : τ} {lock lock' : LockCall}
    {word : UInt32} (hline : (line.map Prod.fst).Nodup) (ht : (t, lock) ∈ line)
    (hserved : Served line t lock) (hu : (u, lock') ∈ line) (hne : t ≠ u)
    (h : Remembers (counted (total n (ahead Prod.fst line u))) word lock') :
    Remembers (counted (total (Function.update n lock (n lock + 1))
      (ahead Prod.fst (line.erase (t, lock)) u))) word lock' := by
  rw [Ahead.erase hne]
  by_cases hway : lock = .writeLock ∨ lock' = .writeLock
  · rw [total_erase (hserved.ahead_of hline ht hu hne hway)]
    exact h
  · cases lock with
    | writeLock => exact absurd (.inl rfl) hway
    | readLock =>
        cases lock' with
        | writeLock => exact absurd (.inr rfl) hway
        | readLock =>
            have htotal : total (Function.update n .readLock (n .readLock + 1))
                ((ahead Prod.fst line u).erase (t, .readLock)) .writeLock =
                  total n (ahead Prod.fst line u) .writeLock := by
              rw [total, total, Function.update_of_ne (by decide), inLine_erase_of_ne (by decide)]
            rw [Remembers, counted, htotal]
            exact h

theorem Placed.erase {line : List (τ × LockCall)} {t u : τ} {lock : LockCall}
    (hline : (line.map Prod.fst).Nodup) (ht : (t, lock) ∈ line) (hserved : Served line t lock)
    (hne : t ≠ u) (h : Placed n line u l) :
    Placed (Function.update n lock (n lock + 1)) (line.erase (t, lock)) u l := by
  have hin {lock' : LockCall} (hmem : (u, lock') ∈ line) : (u, lock') ∈ line.erase (t, lock) := by
    rw [List.mem_erase_of_ne (by simp [Ne.symm hne])]
    exact hmem
  have hout (hnot : u ∉ line.map Prod.fst) : u ∉ (line.erase (t, lock)).map Prod.fst := fun hu =>
    hnot (((List.erase_sublist).map Prod.fst).subset hu)
  cases l with
  | outside => exact hout h
  | entering ptr | entered ptr | cleared ptr =>
      cases ptr with
      | requests => exact hout h
      | completions => exact ⟨hin h.1, Served.erase h.2 hne⟩
  | added ptr =>
      cases ptr with
      | requests => exact ⟨hin h.1, h.2.erase hline ht hserved h.1 hne⟩
      | completions => exact hout h
  | waiting => exact ⟨hin h.1, h.2.erase hline ht hserved h.1 hne⟩
  | inside => exact ⟨hin h.1, Served.erase h.2 hne⟩

theorem Lined.complete (h : Lined c n)
    (hguard : CCritSectLite.Guarded (view Words.atCs Place.atCs c)) {lock : LockCall}
    {retval : UInt32} (he : c.place e.1 = .cleared .completions lock retval) :
    Lined (step code c e) (Function.update n lock (n lock + 1)) := by
  have hcode : code e.1 e.2 c.shared (c.place e.1) = ({ c.shared with
      completions := c.shared.completions + countInc lock
      line := c.shared.line.erase (e.1, lock) }, .added .completions lock retval) := by
    rw [he]
    rfl
  have hself : (step code c e).place e.1 = .added .completions lock retval := by
    rw [step_place_self, hcode]
  obtain ⟨hmem, hserved⟩ : (e.1, lock) ∈ c.shared.line ∧ Served c.shared.line e.1 lock := by
    have hplaced := h.placed e.1
    rw [he] at hplaced
    exact hplaced
  refine ⟨?_, ?_, ?_, ?_⟩
  · rw [step_shared, hcode]
    exact Ahead.nodup_erase h.nodup
  · rw [step_shared, hcode]
    dsimp only
    rw [total_erase hmem]
    exact h.requests.unseen hcode (by simp [he]) (by simp)
  · rw [step_shared, hcode]
    exact h.completions.add hguard he (by simp [hself])
  · rw [step_shared, hcode]
    refine forall_step ?_ fun t ht => (h.placed t).erase h.nodup hmem hserved (Ne.symm ht)
    rw [hcode]
    exact Ahead.not_mem_erase h.nodup hmem

theorem Lined.excludes (h : Lined c n) :
    ReadersWriter (· = .inside .readLock) (· = .inside .writeLock) c.place := by
  intro t u ht hu
  obtain ⟨htmem, htserved⟩ : Placed n c.shared.line t (.inside .writeLock) := ht ▸ h.placed t
  obtain ⟨lock, humem, huserved⟩ : ∃ lock, Placed n c.shared.line u (.inside lock) := by
    rcases hu with hu | hu
    · exact ⟨.readLock, hu ▸ h.placed u⟩
    · exact ⟨.writeLock, hu ▸ h.placed u⟩
  by_contra hne
  rcases Ahead.total h.nodup htmem humem hne with hahead | hahead
  · exact absurd (huserved _ hahead).2 (by simp)
  · exact absurd (htserved _ hahead).1 (by simp)

variable [Fintype τ]

theorem Lined.ahead_lt (hcard : Fintype.card τ ≤ 2 ^ 15) (h : Lined c n) {t : τ} {lock : LockCall}
    (ht : (t, lock) ∈ c.shared.line) (lock' : LockCall) :
    inLine (ahead Prod.fst c.shared.line t) lock' < 0x8000 := by
  have hcount : inLine (ahead Prod.fst c.shared.line t) lock' ≤
      (ahead Prod.fst c.shared.line t).length := List.countP_le_length
  have hlength : (ahead Prod.fst c.shared.line t).length < c.shared.line.length :=
    Ahead.length_lt ht
  have hline := h.nodup.length_le_card
  rw [List.length_map] at hline
  omega

/-- The loop of a call ends when nobody ahead in the line is in the way, whichever count is just
cleared. -/
theorem Lined.admits_iff (hcard : Fintype.card τ ≤ 2 ^ 15) (h : Lined c n) {t : τ}
    {lock : LockCall} {prev : UInt32} (ht : c.place t = .waiting lock prev) :
    compared lock c.shared.completions = prev ↔ Served c.shared.line t lock := by
  obtain ⟨hmem, hremembers⟩ : Placed n c.shared.line t (.waiting lock prev) := ht ▸ h.placed t
  have hfew := h.ahead_lt hcard hmem
  have hcount (k : LockCall) : counted n k = counted (total n (ahead Prod.fst c.shared.line t)) k ↔
      inLine (ahead Prod.fst c.shared.line t) k = 0 :=
    half_eq_iff (hfew k)
  by_cases hnone : ∀ u lock' retval, c.place u ≠ .cleared .completions lock' retval
  · rw [(h.completions.whole hnone).compared_eq_iff hremembers, served_iff, hcount, hcount]
  · simp only [not_forall, not_not] at hnone
    obtain ⟨u, lock', retval, hu⟩ := hnone
    have hshows := (h.completions.cleared u lock' retval hu).1
    obtain ⟨humem, huserved⟩ : Placed n c.shared.line u (.cleared .completions lock' retval) :=
      hu ▸ h.placed u
    have hne : u ≠ t := by
      rintro rfl
      rw [hu] at ht
      cases ht
    rw [hshows.compared_eq_iff hremembers, served_iff]
    by_cases hway : lock' = .writeLock ∨ lock = .writeLock
    · -- The one that has cleared its count is ahead, and its count is not taken for a later one.
      have hahead := huserved.ahead_of h.nodup humem hmem hne hway
      have hpos : 0 < inLine (ahead Prod.fst c.shared.line t) lock' :=
        List.countP_pos_iff.mpr ⟨(u, lock'), hahead, by simp⟩
      have hcleared : clearing (counted n) lock' lock' ≠
          counted (total n (ahead Prod.fst c.shared.line t)) lock' := by
        rw [clearing, Function.update_self]
        exact half_cleared_ne hpos (hfew lock')
      cases lock' with
      | writeLock => exact iff_of_false (fun hboth => hcleared hboth.1) fun hboth => by omega
      | readLock =>
          have hlock : lock = .writeLock := hway.resolve_left (by decide)
          exact iff_of_false (fun hboth => hcleared (hboth.2 hlock)) fun hboth => by
            have := hboth.2 hlock
            omega
    · rw [not_or] at hway
      have hother : clearing (counted n) lock' .writeLock = counted n .writeLock :=
        Function.update_of_ne (Ne.symm hway.1) _ _
      rw [hother, hcount]
      exact and_congr_right fun _ => iff_of_true (fun hlock => absurd hlock hway.2)
        fun hlock => absurd hlock hway.2

theorem lined_step (hcard : Fintype.card τ ≤ 2 ^ 15) (h : Lined c n)
    (hguard : CCritSectLite.Guarded (view Words.atCs Place.atCs c)) (e : τ × LockCall) :
    ∃ n', Lined (step code c e) n' := by
  have hplaced := h.placed e.1
  cases he : c.place e.1 with
  | outside =>
      rw [he] at hplaced
      exact ⟨n, h.unseen (s := c.shared) (l := .entering .requests e.2) (by rw [he]; rfl) rfl
        (by simp [he]) (by simp) hplaced⟩
  | entering ptr lock =>
      rw [he] at hplaced
      by_cases hcs : c.shared.cs
      · exact ⟨n, h.unseen (s := c.shared) (l := .entering ptr lock)
          (by rw [he]; simp only [code, if_pos hcs]) rfl (by simp [he]) (by simp) hplaced⟩
      · refine ⟨n, h.unseen (s := { c.shared with cs := true }) (l := .entered ptr lock)
          (by rw [he]; simp only [code, if_neg hcs]) rfl (by simp [he]) (by simp) ?_⟩
        cases ptr <;> exact hplaced
  | entered ptr lock => exact ⟨n, h.clear hguard he⟩
  | cleared ptr lock retval =>
      cases ptr with
      | requests => exact ⟨n, h.request hguard he⟩
      | completions => exact ⟨_, h.complete hguard he⟩
  | added ptr lock retval =>
      rw [he] at hplaced
      cases ptr with
      | requests => exact ⟨n, h.unseen (s := { c.shared with cs := false })
          (l := .waiting lock (compared lock retval)) (by rw [he]; rfl) rfl (by simp [he]) (by simp)
          hplaced⟩
      | completions => exact ⟨n, h.unseen (s := { c.shared with cs := false }) (l := .outside)
          (by rw [he]; rfl) rfl (by simp [he]) (by simp) hplaced⟩
  | waiting lock prev =>
      rw [he] at hplaced
      by_cases hprev : compared lock c.shared.completions = prev
      · exact ⟨n, h.unseen (s := c.shared) (l := .inside lock)
          (by rw [he]; simp only [code, if_neg (not_not.mpr hprev)]) rfl (by simp [he]) (by simp)
          ⟨hplaced.1, (h.admits_iff hcard he).mp hprev⟩⟩
      · exact ⟨n, h.unseen (s := c.shared) (l := .waiting lock prev)
          (by rw [he]; simp only [code, if_pos hprev]) rfl (by simp [he]) (by simp) hplaced⟩
  | inside lock =>
      rw [he] at hplaced
      exact ⟨n, h.unseen (s := c.shared) (l := .entering .completions lock) (by rw [he]; rfl) rfl
        (by simp [he]) (by simp) hplaced⟩

theorem lined_of_reaches (hcard : Fintype.card τ ≤ 2 ^ 15) (hc : Reaches code new c) :
    ∃ n, Lined c n :=
  hc.invariant (fun c => ∃ n, Lined c n) ⟨_, lined_new⟩ fun _ e hc' ⟨_, h⟩ =>
    lined_step hcard h (guarded_of_reaches hc') e

/-- In every interleaving of at most 2^15 threads, through every overflow of the counts and with
a count just cleared: a writer is alone with the lock, who waits stands in the line, and gets the
lock when it looks exactly if nobody ahead in the line is in its way. -/
theorem serves_in_line (hcard : Fintype.card τ ≤ 2 ^ 15) (hc : Reaches code new c) :
    ReadersWriter (· = .inside .readLock) (· = .inside .writeLock) c.place ∧
    ∀ t lock prev call, c.place t = .waiting lock prev → (t, lock) ∈ c.shared.line ∧
      ((step code c (t, call)).place t = .inside lock ↔ Served c.shared.line t lock) := by
  obtain ⟨n, h⟩ := lined_of_reaches hcard hc
  refine ⟨h.excludes, fun t lock prev call ht => ?_⟩
  have hplaced : Placed n c.shared.line t (.waiting lock prev) := ht ▸ h.placed t
  refine ⟨hplaced.1, ?_⟩
  rw [← h.admits_iff hcard ht, step_place_self (e := (t, call)), ht]
  simp only [code]
  split <;> simp_all

/-- A writer comes after one reader and before another, and neither of the two gets the lock. -/
theorem serves_in_line_three :
    ∃ c : Threads (Fin 3) (Words (Fin 3)) Place, Reaches code new c ∧
      c.place 0 = .inside .readLock ∧
      (step code c (1, .writeLock)).place 1 ≠ .inside .writeLock ∧
      (step code c (2, .readLock)).place 2 ≠ .inside .readLock := by
  let c : Threads (Fin 3) (Words (Fin 3)) Place := run code new
    (List.replicate 6 (0, .readLock) ++ List.replicate 5 (1, .writeLock) ++
      List.replicate 5 (2, .readLock))
  have hc : Reaches code new c := ⟨_, rfl⟩
  have hserves := (serves_in_line (by decide) hc).2
  refine ⟨c, hc, by decide, ?_, ?_⟩
  · rw [ne_eq, (hserves 1 .writeLock 0x10000 .writeLock (by decide)).2]
    decide
  · rw [ne_eq, (hserves 2 .readLock 1 .readLock (by decide)).2]
    decide

end Steps

end CReaderWriterLock_NS_FAIR
end TestCodes.TestUnits
