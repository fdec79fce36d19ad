import Mathlib.Algebra.Ring.Nat
import Mathlib.Data.List.TakeWhile
import Mathlib.Order.Basic
import TestCodes.Lib.Machine

/-! The pool of host processes: 256 slots for handles, of which the first
`_HostProcessQuantity` are looked at. -/
namespace TestCodes.TestUnitsNew
open Machine

abbrev HANDLE := UInt32

def INVALID_HANDLE_VALUE : HANDLE := 0xFFFFFFFF

def WAIT_OBJECT_0 : UInt32 := 0

def WAIT_TIMEOUT : UInt32 := 258

def WAIT_FAILED : UInt32 := 0xFFFFFFFF

def countofHostProcesses : ℕ := 256

structure HostProcessPool where
  hostProcessQuantity : UInt32
  hostProcesses : List HANDLE
  countof_hostProcesses : hostProcesses.length = countofHostProcesses

/-! The input of `HOSTEXECUTER`. -/

/-- What `std::cin >> lastInput` reads, as far as it fits with its terminator. -/
structure Input where
  text : List Int8
  fits : text.length < 10

/-- `lastInput[0]`, the terminator when nothing was read. -/
def Input.first (i : Input) : Int8 := i.text.headD 0

/-- `GetInput`: no 'q'. -/
def Input.accepted (i : Input) : Bool := i.first ≠ 0x71

def isSpace (c : Int8) : Bool := c = 0x20 || (9 ≤ c && c ≤ 13)

def isDigit (c : Int8) : Bool := 0x30 ≤ c && c ≤ 0x39

def digitsValue (text : List Int8) : ℕ :=
  (text.takeWhile isDigit).foldl (fun value c => 10 * value + (c - 0x30).toInt.toNat) 0

/-- `atoi` on a text that an `int` can hold the number of. -/
def atoi (text : List Int8) : Int :=
  match text.dropWhile isSpace with
  | [] => 0
  | c :: rest =>
      if c = 0x2D then -digitsValue rest
      else if c = 0x2B then digitsValue rest
      else digitsValue (c :: rest)

/-- `HostsExecute`; `created` is the handle that `CreateProcess` gives, if it succeeds. -/
def hostsExecute (created : Option HANDLE) : HANDLE :=
  match created with
  | none => INVALID_HANDLE_VALUE
  | some hProcess => hProcess

namespace HostProcessPool

def new : HostProcessPool :=
  ⟨0, List.replicate countofHostProcesses INVALID_HANDLE_VALUE, List.length_replicate⟩

/-- A slot is written; behind the array that is undefined. -/
def store (p : HostProcessPool) (i : ℕ) (handle : HANDLE) : Option HostProcessPool :=
  if i < countofHostProcesses then
    some { p with
      hostProcesses := p.hostProcesses.set i handle
      countof_hostProcesses := List.length_set.trans p.countof_hostProcesses }
  else none

def growSize (p : HostProcessPool) (sizeToGrow : UInt32) : HostProcessPool :=
  let sizeResult := p.hostProcessQuantity + sizeToGrow
  if sizeResult.toNat < countofHostProcesses then { p with hostProcessQuantity := sizeResult }
  else p

/-- The index is compared with the quantity as a `size_t`. -/
def eventSignaled (p : HostProcessPool) (nIdx : Int32) : Option HostProcessPool :=
  if nIdx < 0 ∨ nIdx.toUInt32 ≥ p.hostProcessQuantity then some p
  else p.store nIdx.toUInt32.toNat INVALID_HANDLE_VALUE

/-- `dwRet` is what `WaitForMultipleObjects` answers. -/
def checkAlive (p : HostProcessPool) (dwRet : UInt32) : Option (Bool × HostProcessPool) :=
  if dwRet = WAIT_TIMEOUT then some (true, p)
  else if dwRet = WAIT_FAILED then some (false, p)
  else (p.eventSignaled (dwRet - WAIT_OBJECT_0).toInt32).map fun p => (false, p)

/-- One round of the loop of `Run`: a free slot gets a new process. -/
def launch (created : ℕ → Option HANDLE) (p : HostProcessPool) (i : ℕ) :
    Option HostProcessPool :=
  p.hostProcesses[i]?.bind fun handle =>
  if handle = INVALID_HANDLE_VALUE then p.store i (hostsExecute (created i)) else some p

def runPool (p : HostProcessPool) (dwRet : UInt32) (created : ℕ → Option HANDLE) :
    Option HostProcessPool :=
  (p.checkAlive dwRet).bind fun (alive, p) =>
  if alive then some p
  else Machine.run (launch created) p (List.range p.hostProcessQuantity.toNat)

end HostProcessPool

/-- One round of `HOSTEXECUTER::Run`: the line read, what the wait answers, and the process
created for each slot that asks for one. -/
structure Round where
  line : Input
  accepted : line.accepted = true
  dwRet : UInt32
  created : ℕ → Option HANDLE

/-- The body of the loop. The condition on the line holds of every character. -/
def HostProcessPool.round (p : HostProcessPool) (r : Round) : Option HostProcessPool :=
  let p :=
    if r.line.first > 0x30 ∨ r.line.first ≤ 0x39 then p.growSize (.ofInt (atoi r.line.text))
    else p
  p.runPool r.dwRet r.created

/-! The number of a line is small, so that adding it goes round only below zero. -/

theorem digit_le {c : Int8} (h : isDigit c = true) : (c - 0x30).toInt.toNat ≤ 9 := by
  unfold isDigit at h
  rw [Bool.and_eq_true, decide_eq_true_eq, decide_eq_true_eq, Int8.le_iff_toInt_le,
    Int8.le_iff_toInt_le] at h
  have hlow : (0x30 : Int8).toInt = 48 := rfl
  have hhigh : (0x39 : Int8).toInt = 57 := rfl
  rw [hlow, hhigh] at h
  rw [Int8.toInt_sub, hlow, Int.bmod_eq_of_le (by omega) (by omega)]
  omega

theorem foldl_digits_lt {text : List Int8} (h : ∀ c ∈ text, isDigit c = true) (value : ℕ) :
    text.foldl (fun value c => 10 * value + (c - 0x30).toInt.toNat) value <
      (value + 1) * 10 ^ text.length := by
  induction text generalizing value with
  | nil => simp
  | cons c text ih =>
      have hdigit := digit_le (h c List.mem_cons_self)
      have hlt := ih (fun d hd => h d (List.mem_cons_of_mem c hd))
        (10 * value + (c - 0x30).toInt.toNat)
      rw [List.foldl_cons, List.length_cons, Nat.pow_succ']
      refine hlt.trans_le ?_
      rw [← Nat.mul_assoc]
      apply Nat.mul_le_mul_right
      omega

theorem digitsValue_lt (text : List Int8) : digitsValue text < 10 ^ text.length := by
  have hdigits : ∀ c ∈ text.takeWhile isDigit, isDigit c = true :=
    fun c hc => List.mem_takeWhile_imp hc
  have hlt := foldl_digits_lt hdigits 0
  rw [Nat.zero_add, Nat.one_mul] at hlt
  exact hlt.trans_le (Nat.pow_le_pow_right (by decide) (List.takeWhile_sublist _).length_le)

theorem atoi_bounds {text : List Int8} (h : text.length < 10) :
    -1000000000 < atoi text ∧ atoi text < 1000000000 := by
  have hdrop : (text.dropWhile isSpace).length ≤ 9 :=
    (List.dropWhile_sublist _).length_le.trans (Nat.le_of_lt_succ h)
  have hvalue : ∀ rest : List Int8, rest.length ≤ 9 → digitsValue rest < 1000000000 := by
    intro rest hrest
    exact (digitsValue_lt rest).trans_le (Nat.pow_le_pow_right (by decide) hrest)
  unfold atoi
  split
  · omega
  · rename_i c rest hrest
    rw [hrest, List.length_cons] at hdrop
    have hbehind := hvalue rest (by omega)
    have hall := hvalue (c :: rest) hdrop
    split
    · omega
    · split <;> omega

namespace HostProcessPool
variable {p p' : HostProcessPool} {r : Round}

/-- No handle stands at the quantity or above it, where nothing looks. -/
structure Kept (p : HostProcessPool) : Prop where
  inside : p.hostProcessQuantity.toNat < countofHostProcesses
  free : ∀ i, p.hostProcessQuantity.toNat ≤ i → i < countofHostProcesses →
    p.hostProcesses[i]? = some INVALID_HANDLE_VALUE

/-- The round has a meaning, and the pool has only grown. -/
def Grows (p : HostProcessPool) (r : Round) : Prop :=
  ∃ p', p.round r = some p' ∧ p.hostProcessQuantity ≤ p'.hostProcessQuantity ∧ p'.Kept

/-- A negative number, and not below what there is to take away. -/
def Shrinks (p : HostProcessPool) (r : Round) : Prop :=
  atoi r.line.text < 0 ∧ -(p.hostProcessQuantity.toNat : Int) ≤ atoi r.line.text

instance (p : HostProcessPool) (r : Round) : Decidable (p.Shrinks r) :=
  inferInstanceAs (Decidable (_ ∧ _))

theorem kept_new : new.Kept := by
  refine ⟨by decide, ?_⟩
  intro i _ hi
  exact List.getElem?_replicate_of_lt hi

/-- The sum decides: in range it is the new quantity, and below zero it is far too large. -/
theorem growSize_quantity (p : HostProcessPool) (inside : p.hostProcessQuantity.toNat < 256)
    {value : Int} (hlow : -1000000000 < value) (hhigh : value < 1000000000) :
    ((p.growSize (.ofInt value)).hostProcessQuantity.toNat : Int) =
      if 0 ≤ p.hostProcessQuantity.toNat + value ∧ p.hostProcessQuantity.toNat + value < 256 then
        p.hostProcessQuantity.toNat + value
      else p.hostProcessQuantity.toNat := by
  have hvalue : (UInt32.ofInt value).toNat = (value % 2 ^ 32).toNat :=
    UInt32.toNat_ofNat_of_lt (by unfold UInt32.size; omega)
  have hsum := UInt32.toNat_add p.hostProcessQuantity (.ofInt value)
  rw [hvalue] at hsum
  by_cases hin : (p.hostProcessQuantity + .ofInt value).toNat < countofHostProcesses
  · simp only [growSize, if_pos hin]
    unfold countofHostProcesses at hin
    split <;> omega
  · simp only [growSize, if_neg hin]
    unfold countofHostProcesses at hin
    split <;> omega

theorem growSize_hostProcesses (p : HostProcessPool) (sizeToGrow : UInt32) :
    (p.growSize sizeToGrow).hostProcesses = p.hostProcesses := by
  simp only [growSize]
  split <;> rfl

theorem growSize_kept (h : p.Kept) {value : Int} (hlow : -1000000000 < value)
    (hhigh : value < 1000000000)
    (hnot : ¬ (value < 0 ∧ -(p.hostProcessQuantity.toNat : Int) ≤ value)) :
    p.hostProcessQuantity ≤ (p.growSize (.ofInt value)).hostProcessQuantity ∧
      (p.growSize (.ofInt value)).Kept := by
  have hquantity := p.growSize_quantity h.inside hlow hhigh
  have hinside : p.hostProcessQuantity.toNat < 256 := h.inside
  have hle : p.hostProcessQuantity.toNat ≤ (p.growSize (.ofInt value)).hostProcessQuantity.toNat ∧
      (p.growSize (.ofInt value)).hostProcessQuantity.toNat < 256 := by
    split at hquantity <;> omega
  refine ⟨UInt32.le_iff_toNat_le.mpr hle.1, hle.2, ?_⟩
  intro i hi hlt
  rw [growSize_hostProcesses]
  exact h.free i (hle.1.trans hi) hlt

/-- A slot that is looked at may hold anything. -/
theorem store_kept (h : p.Kept) {i : ℕ} (hi : i < p.hostProcessQuantity.toNat)
    (handle : HANDLE) : ∃ p', p.store i handle = some p' ∧
      p'.hostProcessQuantity = p.hostProcessQuantity ∧ p'.Kept := by
  refine ⟨_, if_pos (hi.trans h.inside), rfl, h.inside, ?_⟩
  intro j hj hlt
  have hne : i ≠ j := by
    rintro rfl
    exact absurd hi (Nat.not_lt.mpr hj)
  exact (List.getElem?_set_ne hne).trans (h.free j hj hlt)

theorem eventSignaled_kept (h : p.Kept) (nIdx : Int32) : ∃ p', p.eventSignaled nIdx = some p' ∧
    p'.hostProcessQuantity = p.hostProcessQuantity ∧ p'.Kept := by
  unfold eventSignaled
  split
  · exact ⟨p, rfl, rfl, h⟩
  · rename_i hin
    exact store_kept h (UInt32.lt_iff_toNat_lt.mp (UInt32.not_le.mp (not_or.mp hin).2)) _

theorem checkAlive_kept (h : p.Kept) (dwRet : UInt32) : ∃ out, p.checkAlive dwRet = some out ∧
    out.2.hostProcessQuantity = p.hostProcessQuantity ∧ out.2.Kept := by
  unfold checkAlive
  split
  · exact ⟨_, rfl, rfl, h⟩
  · split
    · exact ⟨_, rfl, rfl, h⟩
    · obtain ⟨p', hp', hquantity, hkept⟩ := eventSignaled_kept h (dwRet - WAIT_OBJECT_0).toInt32
      exact ⟨(false, p'), by rw [hp']; rfl, hquantity, hkept⟩

theorem launch_kept (h : p.Kept) (created : ℕ → Option HANDLE) {i : ℕ}
    (hi : i < p.hostProcessQuantity.toNat) : ∃ p', launch created p i = some p' ∧
      p'.hostProcessQuantity = p.hostProcessQuantity ∧ p'.Kept := by
  have hlt : i < p.hostProcesses.length := by
    rw [p.countof_hostProcesses]
    exact hi.trans h.inside
  rw [launch, List.getElem?_eq_getElem hlt, Option.bind_some]
  split
  · exact store_kept h hi _
  · exact ⟨p, rfl, rfl, h⟩

theorem runPool_kept (h : p.Kept) (dwRet : UInt32) (created : ℕ → Option HANDLE) :
    ∃ p', p.runPool dwRet created = some p' ∧
      p'.hostProcessQuantity = p.hostProcessQuantity ∧ p'.Kept := by
  obtain ⟨⟨alive, p₁⟩, hcheck, hquantity, hkept⟩ := checkAlive_kept h dwRet
  rw [runPool, hcheck, Option.bind_some]
  cases alive with
  | true => exact ⟨p₁, rfl, hquantity, hkept⟩
  | false =>
      obtain ⟨p', hrun, hsame, hkept'⟩ := run_range (launch created)
        (n := p₁.hostProcessQuantity.toNat)
        (fun _ q => q.hostProcessQuantity = p₁.hostProcessQuantity ∧ q.Kept)
        (fun i q hi hq => by
          obtain ⟨q', hq', hsame, hkept'⟩ := launch_kept hq.2 created (hq.1 ▸ hi)
          exact ⟨q', hq', hsame.trans hq.1, hkept'⟩) ⟨rfl, hkept⟩
      exact ⟨p', hrun, hsame.trans hquantity, hkept'⟩

/-! Whatever the slots hold, a round changes the quantity in `GrowSize` only. -/

theorem store_quantity {i : ℕ} {handle : HANDLE} (h : p.store i handle = some p') :
    p'.hostProcessQuantity = p.hostProcessQuantity := by
  unfold store at h
  split at h
  · rw [← Option.some.inj h]
  · cases h

theorem checkAlive_quantity {dwRet : UInt32} {out : Bool × HostProcessPool}
    (h : p.checkAlive dwRet = some out) : out.2.hostProcessQuantity = p.hostProcessQuantity := by
  unfold checkAlive at h
  split at h
  · rw [← Option.some.inj h]
  · split at h
    · rw [← Option.some.inj h]
    · obtain ⟨p', hp', rfl⟩ := Option.map_eq_some_iff.mp h
      unfold eventSignaled at hp'
      split at hp'
      · rw [← Option.some.inj hp']
      · exact store_quantity hp'

theorem launch_quantity {created : ℕ → Option HANDLE} {i : ℕ}
    (h : launch created p i = some p') : p'.hostProcessQuantity = p.hostProcessQuantity := by
  obtain ⟨handle, -, h⟩ := Option.bind_eq_some_iff.mp h
  split at h
  · exact store_quantity h
  · rw [← Option.some.inj h]

theorem runPool_quantity {dwRet : UInt32} {created : ℕ → Option HANDLE}
    (h : p.runPool dwRet created = some p') :
    p'.hostProcessQuantity = p.hostProcessQuantity := by
  obtain ⟨⟨alive, p₁⟩, hcheck, h⟩ := Option.bind_eq_some_iff.mp h
  have hquantity := checkAlive_quantity hcheck
  cases alive with
  | true => exact Option.some.inj h ▸ hquantity
  | false =>
      exact run_keeps (fun q : HostProcessPool => q.hostProcessQuantity = p.hostProcessQuantity)
        (fun _ _ _ hq hl => (launch_quantity hl).trans hq) hquantity h

/-- Every line goes to `GrowSize`: a character is above '0' or not above '9'. -/
theorem round_eq (p : HostProcessPool) (r : Round) :
    p.round r = (p.growSize (.ofInt (atoi r.line.text))).runPool r.dwRet r.created := by
  have hany : r.line.first > 0x30 ∨ r.line.first ≤ 0x39 := by
    have hlow : (0x30 : Int8).toInt = 48 := rfl
    have hhigh : (0x39 : Int8).toInt = 57 := rfl
    rw [gt_iff_lt, Int8.lt_iff_toInt_lt, Int8.le_iff_toInt_le, hlow, hhigh]
    omega
  simp only [round, if_pos hany]

theorem grows_iff (h : p.Kept) (r : Round) : p.Grows r ↔ ¬ p.Shrinks r := by
  obtain ⟨hlow, hhigh⟩ := atoi_bounds r.line.fits
  have hinside : p.hostProcessQuantity.toNat < 256 := h.inside
  constructor
  · rintro ⟨p', hround, hle, -⟩ ⟨hneg, hback⟩
    rw [round_eq] at hround
    have hquantity := p.growSize_quantity hinside hlow hhigh
    rw [if_pos (by omega), ← runPool_quantity hround] at hquantity
    rw [UInt32.le_iff_toNat_le] at hle
    omega
  · intro hnot
    obtain ⟨hle, hkept⟩ := growSize_kept h hlow hhigh hnot
    obtain ⟨p', hrun, hquantity, hkept'⟩ := runPool_kept hkept r.dwRet r.created
    exact ⟨p', (p.round_eq r).trans hrun, hquantity ▸ hle, hkept'⟩

end HostProcessPool

open HostProcessPool

/-- Over the rounds of a run the pool only grows and keeps every handle in range, exactly
when no line has a negative number that the quantity can bear. -/
theorem pool_only_grows_iff (rounds : List Round) :
    Along HostProcessPool.round Grows new rounds ↔
      Along HostProcessPool.round (fun p r => ¬ p.Shrinks r) new rounds := by
  apply along_congr Kept (fun _ r h => grows_iff h r) ?_ kept_new
  rintro p r p' - ⟨p₁, hround, -, hkept⟩ h
  rw [h] at hround
  exact Option.some.inj hround ▸ hkept

/-- "3" and "-2", with three processes created in between. -/
def threeThenBack : List Round :=
  [⟨⟨[0x33], by decide⟩, rfl, WAIT_FAILED, fun i => some (.ofNat (10 * i + 10))⟩,
    ⟨⟨[0x2D, 0x32], by decide⟩, rfl, WAIT_TIMEOUT, fun _ => none⟩]

/-- The last two of the three processes run on behind the quantity. -/
theorem pool_loses_hosts :
    (¬ ∀ rounds, Along HostProcessPool.round Grows new rounds) ∧
    (run HostProcessPool.round new threeThenBack).map (fun p =>
      (p.hostProcessQuantity, p.hostProcesses.take 4)) =
        some (1, [10, 20, 30, INVALID_HANDLE_VALUE]) := by
  refine ⟨fun h => ?_, rfl⟩
  have hruns := h threeThenBack
  obtain ⟨p₁, hround, -, hkept⟩ := hruns.1
  have hquantity : p₁.hostProcessQuantity = 3 :=
    runPool_quantity ((new.round_eq _).symm.trans hround)
  refine (grows_iff hkept _).mp (hruns.tail hround).1 ⟨by decide, ?_⟩
  rw [hquantity]
  decide

end TestCodes.TestUnitsNew
