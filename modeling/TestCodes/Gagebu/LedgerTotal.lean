import TestCodes.Lib.Machine
import TestCodes.Gagebu.Ledger
import Mathlib.Algebra.BigOperators.Group.List.Basic

/-! The operations of the ledger's menu, and the total that they keep. -/
namespace TestCodes.Gagebu

open Machine

/-- An `int` that overflows is undefined. -/
def int? (value : ℤ) : Option Int32 :=
  if -2 ^ 31 ≤ value ∧ value < 2 ^ 31 then some (.ofInt value) else none

structure Entry where
  year : Int32
  month : Int32
  day : Int32
  choice : Int32
  money : Int32

/-- The choices of the menu. What is printed is left out; `fnShow` asks for a year at each
slot in use. -/
inductive Command
  | fnInput (e : Entry)
  | fnDisburse
  | fnIncome
  | fnPrint
  | fnShow (years : ℕ → Int32)

namespace Program

/-- The loop of `fnInput` looks for a slot whose day is 0. -/
def free (p : Program) : Option ℕ := p.mo.findIdx? fun m => m.day = 0

def fnInput (p : Program) (e : Entry) : Option Program :=
  match p.free with
  | none => some p
  | some i => p.mo[i]?.bind fun slot =>
      let m : MONEY := { slot with year := e.year, month := e.month, day := e.day }
      if e.choice = 1 then
        (int? (p.total.toInt + e.money.toInt)).bind fun total =>
          { p with total := total }.store i { m with flag := 1, money := e.money }
      else if e.choice = 2 then
        (int? (p.total.toInt - e.money.toInt)).bind fun total =>
          { p with total := total }.store i { m with flag := 2, money := e.money }
      else p.store i m

def fnShow (p : Program) (years : ℕ → Int32) : Program where
  mo := p.mo.mapIdx fun i m => if m.day ≠ 0 then { m with year := years i } else m
  total := p.total
  sizeof_mo := List.length_mapIdx.trans p.sizeof_mo

def step (p : Program) : Command → Option Program
  | .fnInput e => p.fnInput e
  | .fnDisburse | .fnIncome | .fnPrint => some p
  | .fnShow years => some (p.fnShow years)

def amount (flag : BitVec 3) (records : List MONEY) : ℤ :=
  ((records.filter fun m => m.flag = flag).map fun m => m.money.toInt).sum

/-- The total is what was taken less what was spent. -/
def Balanced (p : Program) : Prop :=
  p.total.toInt = amount 1 p.records - amount 2 p.records

/-- An amount is entered in a slot that stays free. -/
def Unbalances (p : Program) : Command → Prop
  | .fnInput e =>
      (∃ m ∈ p.mo, m.day = 0) ∧ e.day = 0 ∧ (e.choice = 1 ∨ e.choice = 2) ∧ e.money ≠ 0
  | _ => False

end Program

def MONEY.signed (m : MONEY) : ℤ :=
  if m.flag = 1 then m.money.toInt else if m.flag = 2 then -m.money.toInt else 0

/-- What a slot adds to the balance. -/
def MONEY.share (m : MONEY) : ℤ :=
  if m.day = 0 then 0 else m.signed

namespace Program

theorem amount_cons (flag : BitVec 3) (m : MONEY) (records : List MONEY) :
    amount flag (m :: records) =
      (if m.flag = flag then m.money.toInt else 0) + amount flag records := by
  unfold amount
  split
  · rename_i h
    rw [List.filter_cons_of_pos (by simp [h]), List.map_cons, List.sum_cons]
  · rename_i h
    rw [List.filter_cons_of_neg (by simp [h]), Int.zero_add]

theorem balance_eq (slots : List MONEY) :
    amount 1 (slots.filter fun m => m.day ≠ 0) - amount 2 (slots.filter fun m => m.day ≠ 0) =
      (slots.map MONEY.share).sum := by
  induction slots with
  | nil => rfl
  | cons m slots ih =>
      rw [List.map_cons, List.sum_cons, ← ih, MONEY.share]
      by_cases hday : m.day = 0
      · rw [List.filter_cons_of_neg (by simp [hday]), if_pos hday, Int.zero_add]
      rw [List.filter_cons_of_pos (by simp [hday]), if_neg hday, amount_cons, amount_cons,
        MONEY.signed]
      by_cases h1 : m.flag = 1
      · have h2 : m.flag ≠ 2 := by
          rw [h1]
          decide
        rw [if_pos h1, if_pos h1, if_neg h2]
        omega
      rw [if_neg h1, if_neg h1]
      split
      · omega
      · omega

theorem balanced_iff (p : Program) : p.Balanced ↔ p.total.toInt = (p.mo.map MONEY.share).sum := by
  rw [Balanced, records, balance_eq]

/-- A free slot is worth nothing, also if its flag and its money are left from before. -/
def Kept (p : Program) : Prop :=
  p.Balanced ∧ ∀ m ∈ p.mo, m.day = 0 → m.signed = 0

theorem kept_fresh : Kept fresh := by
  constructor
  · unfold Balanced
    decide
  · intro m hm _
    rw [List.eq_of_mem_replicate hm]
    rfl

theorem int?_toInt {value : ℤ} {x : Int32} (h : int? value = some x) : x.toInt = value := by
  unfold int? at h
  split at h
  · rename_i hvalue
    rw [← Option.some.inj h, Int32.toInt_ofInt_of_le hvalue.1 hvalue.2]
  · cases h

theorem toInt_eq_zero (x : Int32) : x.toInt = 0 ↔ x = 0 :=
  Int32.toInt_inj (y := 0)

variable {p q : Program}

/-- What an entry does that finds a free slot. -/
structure Enters (p q : Program) (e : Entry) (i : ℕ) (slot m : MONEY) : Prop where
  at_slot : p.mo[i]? = some slot
  free : slot.day = 0
  mo : q.mo = p.mo.set i m
  day : m.day = e.day
  total : (e.choice = 1 ∨ e.choice = 2) ∧ (m.signed = 0 ↔ e.money = 0) ∧
      q.total.toInt = p.total.toInt + m.signed ∨
    ¬ (e.choice = 1 ∨ e.choice = 2) ∧ m.signed = slot.signed ∧ q.total = p.total

theorem store_eq {i : ℕ} {m : MONEY} (h : p.store i m = some q) :
    q.mo = p.mo.set i m ∧ q.total = p.total := by
  unfold store at h
  split at h
  · rw [← Option.some.inj h]
    exact ⟨rfl, rfl⟩
  · cases h

theorem free_none (h : p.free = none) : ∀ m ∈ p.mo, m.day ≠ 0 := by
  intro m hm hday
  have hall := List.findIdx?_eq_none_iff.mp h m hm
  simp [hday] at hall

theorem free_some {i : ℕ} (h : p.free = some i) :
    ∃ slot, p.mo[i]? = some slot ∧ slot.day = 0 := by
  obtain ⟨hi, hday, -⟩ := List.findIdx?_eq_some_iff_getElem.mp h
  exact ⟨p.mo[i], List.getElem?_eq_getElem hi, of_decide_eq_true hday⟩

theorem fnInput_cases {e : Entry} (h : p.fnInput e = some q) :
    ((∀ m ∈ p.mo, m.day ≠ 0) ∧ q = p) ∨ ∃ i slot m, Enters p q e i slot m := by
  unfold fnInput at h
  split at h
  · exact .inl ⟨free_none ‹_›, (Option.some.inj h).symm⟩
  · rename_i i hfree
    obtain ⟨slot, hslot, hday⟩ := free_some hfree
    rw [hslot, Option.bind_some] at h
    simp only at h
    right
    split at h
    · obtain ⟨total, htotal, hstore⟩ := Option.bind_eq_some_iff.mp h
      obtain ⟨hmo, hq⟩ := store_eq hstore
      refine ⟨i, slot, _, hslot, hday, hmo, rfl, .inl ⟨.inl ‹_›, ?_, ?_⟩⟩
      · exact toInt_eq_zero e.money
      · rw [hq, int?_toInt htotal]
        rfl
    split at h
    · obtain ⟨total, htotal, hstore⟩ := Option.bind_eq_some_iff.mp h
      obtain ⟨hmo, hq⟩ := store_eq hstore
      refine ⟨i, slot, _, hslot, hday, hmo, rfl, .inl ⟨.inr ‹_›, ?_, ?_⟩⟩
      · exact Int.neg_eq_zero.trans (toInt_eq_zero e.money)
      · rw [hq, int?_toInt htotal]
        rfl
    · obtain ⟨hmo, hq⟩ := store_eq h
      exact ⟨i, slot, _, hslot, hday, hmo, rfl, .inr ⟨not_or.mpr ⟨‹_›, ‹_›⟩, rfl, hq⟩⟩

theorem Enters.balance {e : Entry} {i : ℕ} {slot m : MONEY} (h : Enters p q e i slot m) :
    (q.mo.map MONEY.share).sum = (p.mo.map MONEY.share).sum + m.share := by
  obtain ⟨hi, hslot⟩ := List.getElem?_eq_some_iff.mp h.at_slot
  have hfree : MONEY.share slot = 0 := if_pos h.free
  have hmap : i < (p.mo.map MONEY.share).length := by rwa [List.length_map]
  rw [h.mo, List.map_set, List.sum_set', dif_pos hmap, List.getElem_map, hslot, hfree]
  omega

theorem Enters.slot_signed {e : Entry} {i : ℕ} {slot m : MONEY} (h : Enters p q e i slot m)
    (hp : p.Kept) : slot.signed = 0 :=
  hp.2 slot (List.mem_of_getElem? h.at_slot) h.free

theorem Enters.balanced_iff {e : Entry} {i : ℕ} {slot m : MONEY} (h : Enters p q e i slot m)
    (hp : p.Kept) : q.Balanced ↔
      ¬ (e.day = 0 ∧ (e.choice = 1 ∨ e.choice = 2) ∧ e.money ≠ 0) := by
  have hshare : m.share = if e.day = 0 then 0 else m.signed := by
    rw [MONEY.share, h.day]
  rw [Program.balanced_iff, h.balance, ← p.balanced_iff.mp hp.1, hshare]
  rcases h.total with ⟨hchoice, hzero, htotal⟩ | ⟨hchoice, hsame, htotal⟩
  · rw [htotal]
    split
    · rename_i hday
      rw [and_iff_right hday, and_iff_right hchoice, not_not, ← hzero]
      omega
    · rename_i hday
      exact iff_of_true rfl fun h => hday h.1
  · rw [htotal, hsame, h.slot_signed hp, ite_self, Int.add_zero]
    exact iff_of_true rfl fun h => hchoice h.2.1

theorem Enters.kept {e : Entry} {i : ℕ} {slot m : MONEY} (h : Enters p q e i slot m)
    (hp : p.Kept) (hq : q.Balanced) : q.Kept := by
  refine ⟨hq, ?_⟩
  intro m' hm' hday
  rw [h.mo] at hm'
  rcases List.mem_or_eq_of_mem_set hm' with hm' | rfl
  · exact hp.2 m' hm' hday
  rcases h.total with ⟨hchoice, hzero, -⟩ | ⟨-, hsame, -⟩
  · by_contra hne
    exact (h.balanced_iff hp).mp hq ⟨h.day ▸ hday, hchoice, mt hzero.mpr hne⟩
  · exact hsame.trans (h.slot_signed hp)

theorem fnShow_shares (p : Program) (years : ℕ → Int32) :
    (p.fnShow years).mo.map MONEY.share = p.mo.map MONEY.share := by
  apply List.ext_getElem
  · rw [List.length_map, List.length_map, sizeof_mo, sizeof_mo]
  · intro i h h'
    rw [List.getElem_map, List.getElem_map]
    simp only [fnShow, List.getElem_mapIdx]
    split <;> rfl

theorem fnShow_kept (hp : p.Kept) (years : ℕ → Int32) : (p.fnShow years).Kept := by
  constructor
  · rw [Program.balanced_iff, fnShow_shares]
    exact p.balanced_iff.mp hp.1
  · intro m hm hday
    obtain ⟨i, hi, rfl⟩ := List.mem_mapIdx.mp hm
    split at hday
    · rename_i hused
      exact absurd hday hused
    · rename_i hfree
      rw [if_neg hfree]
      exact hp.2 _ (List.getElem_mem hi) hday

theorem step_kept {c : Command} (hp : p.Kept) (hq : q.Balanced) (h : p.step c = some q) :
    q.Kept := by
  cases c with
  | fnInput e =>
      rcases fnInput_cases h with ⟨-, rfl⟩ | ⟨i, slot, m, henters⟩
      · exact hp
      · exact henters.kept hp hq
  | fnShow years => exact Option.some.inj h ▸ fnShow_kept hp years
  | fnDisburse | fnIncome | fnPrint => exact Option.some.inj h ▸ hp

theorem step_balanced_iff {c : Command} (hp : p.Kept) (h : p.step c = some q) :
    q.Balanced ↔ ¬ p.Unbalances c := by
  cases c with
  | fnInput e =>
      rcases fnInput_cases h with ⟨hnone, rfl⟩ | ⟨i, slot, m, henters⟩
      · refine iff_of_true hp.1 ?_
        rintro ⟨⟨m, hm, hday⟩, -⟩
        exact hnone m hm hday
      · have hfree : ∃ m ∈ p.mo, m.day = 0 :=
          ⟨slot, List.mem_of_getElem? henters.at_slot, henters.free⟩
        rw [henters.balanced_iff hp, Unbalances, and_iff_right hfree]
  | fnShow years => exact iff_of_true (Option.some.inj h ▸ (fnShow_kept hp years).1) id
  | fnDisburse | fnIncome | fnPrint => exact iff_of_true (Option.some.inj h ▸ hp.1) id

end Program

open Program

/-- Over the runs of the menu in which no amount overflows, the total is that of the records
throughout, exactly when no amount is entered under the day 0. -/
theorem total_balanced_iff {commands : List Command} {q : Program}
    (h : run step fresh commands = some q) : Throughout step Program.Balanced fresh commands ↔
      Along step (fun p c => ¬ p.Unbalances c) fresh commands := by
  apply Throughout.iff_along Kept (fun p hp => hp.1) ?_ ?_ kept_fresh h
  · intro p c q hp hstep
    exact step_balanced_iff hp hstep
  · intro p c q hp hq hstep
    exact step_kept hp hq hstep

/-- An income, listed and dated anew, and a choice that is rejected. -/
def incomeAndRejected : List Command :=
  [.fnInput ⟨2012, 11, 29, 1, 100⟩, .fnIncome, .fnShow fun _ => 2013,
    .fnInput ⟨2012, 11, 30, 3, 50⟩]

theorem total_balanced_income : Throughout step Program.Balanced fresh incomeAndRejected := by
  obtain ⟨q, hq⟩ := Option.isSome_iff_exists.mp
    (rfl : (run step fresh incomeAndRejected).isSome = true)
  apply (total_balanced_iff hq).mpr
  refine ⟨?_, id, id, ?_, True.intro⟩
  · rintro ⟨-, hday, -⟩
    exact absurd hday (by decide)
  · rintro ⟨-, hday, -⟩
    exact absurd hday (by decide)

/-- The income is in the total, and its slot is free. -/
theorem day_zero_unbalances :
    ∃ q, run step fresh [.fnInput ⟨2012, 11, 0, 1, 100⟩] = some q ∧ q.total = 100 ∧
      q.records = [] ∧ ¬ q.Balanced := by
  refine ⟨⟨⟨1, 2012, 11, 0, 100⟩ :: List.replicate 99 .zero, 100, rfl⟩, rfl, rfl, rfl, ?_⟩
  unfold Program.Balanced
  decide

end TestCodes.Gagebu
