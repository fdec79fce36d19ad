import TestCodes.Lib.LowerBound
import TestCodes.Lib.StableSort

/-! Events put in order three ways: a linear insertion into a list, the same into a
vector, and a binary insertion under the inverted comparison. -/
namespace TestCodes.TestUnitsNew

structure MyEvt where
  dwNextEventTime : UInt32
  deriving DecidableEq

inductive Order
  | ascending
  | descending
  deriving DecidableEq

structure MyEvtComparsion where
  myOrder : Order := .descending

/-- `operator()` on two pointers, the null ones `none`. -/
def MyEvtComparsion.call (comparsion : MyEvtComparsion) : Option MyEvt → Option MyEvt → Bool
  | some lhs, some rhs =>
      match comparsion.myOrder with
      | .descending => lhs.dwNextEventTime > rhs.dwNextEventTime
      | .ascending => lhs.dwNextEventTime < rhs.dwNextEventTime
  | _, _ => false

variable (values : List MyEvt)

/-- `&values[i]`: the containers hold pointers into the array. -/
abbrev EvtPtr : Type := Fin values.length

/-- Where the scan breaks: at the first entry that is later. -/
def scan (entities : List (EvtPtr values)) (nCurInput : EvtPtr values) : ℕ :=
  entities.findIdx fun nCurValue =>
    (values.get nCurValue).dwNextEventTime > (values.get nCurInput).dwNextEventTime

/-- One round of the linear insertion; a null input is passed over. -/
def insertLinear (entities : List (EvtPtr values)) : Option (EvtPtr values) →
    List (EvtPtr values)
  | none => entities
  | some nCurInput => entities.insertIdx (scan values entities nCurInput) nCurInput

def insertBinary (comparsion : MyEvtComparsion) (entities : List (EvtPtr values))
    (nCurInput : EvtPtr values) : List (EvtPtr values) :=
  entities.insertIdx
    (lowerBound (fun e => comparsion.call (values.get e) (values.get nCurInput)) entities 0
      entities.length)
    nCurInput

/-- `while(nLoopCnt--)` takes the events from the last one down. -/
def inputs : List (EvtPtr values) := (List.finRange values.length).reverse

def listEntities : List (EvtPtr values) :=
  (inputs values).foldl (fun entities nCurInput => insertLinear values entities (some nCurInput)) []

def vector : List (EvtPtr values) :=
  (inputs values).foldl (fun entities nCurInput => insertLinear values entities (some nCurInput)) []

def vectorUserBinaryInsert : List (EvtPtr values) :=
  (inputs values).foldl (insertBinary values {}) []

def eventTime (e : EvtPtr values) : ℕ := (values.get e).dwNextEventTime.toNat

variable {values} {entities : List (EvtPtr values)} {nCurInput : EvtPtr values}

theorem later_iff (e : EvtPtr values) :
    (values.get e).dwNextEventTime > (values.get nCurInput).dwNextEventTime ↔
      ¬ eventTime values e ≤ eventTime values nCurInput :=
  UInt32.lt_iff_toNat_lt.trans not_le.symm

theorem scan_eq (entities : List (EvtPtr values)) (nCurInput : EvtPtr values) :
    scan values entities nCurInput =
      (entities.takeWhile (eventTime values · ≤ eventTime values nCurInput)).length := by
  rw [length_takeWhile_eq_findIdx, scan]
  congr 1
  funext e
  rw [← decide_not]
  exact decide_eq_decide.mpr (later_iff e)

theorem insertLinear_eq (entities : List (EvtPtr values)) (nCurInput : EvtPtr values) :
    insertLinear values entities (some nCurInput) =
      entities.orderedInsert (fun a b => eventTime values a < eventTime values b) nCurInput := by
  rw [StableSort.orderedInsert_split, ← insertIdx_takeWhile, ← scan_eq]
  rfl

theorem partitioned_reverse
    (h : entities.Pairwise fun a b => eventTime values a ≤ eventTime values b)
    (nCurInput : EvtPtr values) :
    Partitioned (fun e => !decide (eventTime values e ≤ eventTime values nCurInput))
      entities.reverse := by
  refine List.pairwise_reverse.mpr (h.imp fun {a b} hab hb => ?_)
  simp only [Bool.not_eq_true', decide_eq_false_iff_not] at hb ⊢
  exact fun ha => hb (hab.trans ha)

/-- The search stops behind what is later than the input, before those due with it. -/
theorem insertBinary_eq
    (h : entities.Pairwise fun a b => eventTime values a ≤ eventTime values b)
    (nCurInput : EvtPtr values) :
    insertBinary values {} entities.reverse nCurInput =
      (insertLinear values entities (some nCurInput)).reverse := by
  have hcall : (fun e => MyEvtComparsion.call {} (values.get e) (values.get nCurInput)) =
      fun e => !decide (eventTime values e ≤ eventTime values nCurInput) := by
    funext e
    rw [← decide_not]
    exact decide_eq_decide.mpr (later_iff e)
  have hparted := partitioned_reverse h nCurInput
  have hsorted := Partitioned.of_sorted h (eventTime values nCurInput)
  rw [insertBinary, hcall, hparted.lowerBound_length, insertIdx_takeWhile,
    hparted.takeWhile_eq_filter, hparted.dropWhile_eq_filter, insertLinear_eq,
    StableSort.orderedInsert_split, hsorted.takeWhile_eq_filter, hsorted.dropWhile_eq_filter]
  simp only [List.filter_reverse, Bool.not_not, List.reverse_append, List.reverse_cons,
    List.append_assoc, List.singleton_append]

theorem insertLinear_foldl (es entities : List (EvtPtr values)) :
    es.foldl (fun entities nCurInput => insertLinear values entities (some nCurInput)) entities =
      es.foldl (fun entities nCurInput =>
        entities.orderedInsert (fun a b => eventTime values a < eventTime values b) nCurInput)
        entities := by
  congr 1
  funext entities nCurInput
  exact insertLinear_eq entities nCurInput

theorem insertBinary_foldl (es : List (EvtPtr values))
    (h : entities.Pairwise fun a b => eventTime values a ≤ eventTime values b) :
    es.foldl (insertBinary values {}) entities.reverse =
      (es.foldl (fun entities nCurInput => insertLinear values entities (some nCurInput))
        entities).reverse := by
  induction es generalizing entities with
  | nil => rfl
  | cons nCurInput es ih =>
      rw [List.foldl_cons, List.foldl_cons, insertBinary_eq h]
      apply ih
      rw [insertLinear_eq]
      exact OrderedIndex.sorted_orderedInsert h nCurInput

theorem listEntities_eq (values : List MyEvt) :
    listEntities values = (inputs values).mergeSort
      fun a b => eventTime values a ≤ eventTime values b := by
  rw [listEntities, insertLinear_foldl]
  exact foldl_orderedInsert _ _

/-- The list and the vector have the stable ascending sort of the events, the binary
insertion has it backwards, and each holds every event once. -/
theorem insertions_agree (values : List MyEvt) :
    StableSort (eventTime values) (inputs values) (listEntities values) ∧
    vector values = listEntities values ∧
    vectorUserBinaryInsert values = (listEntities values).reverse ∧
    (listEntities values).Perm (List.finRange values.length) ∧
    (vectorUserBinaryInsert values).Perm (List.finRange values.length) := by
  have hbinary : vectorUserBinaryInsert values = (listEntities values).reverse :=
    insertBinary_foldl (inputs values) .nil
  have hperm : (listEntities values).Perm (List.finRange values.length) := by
    rw [listEntities_eq]
    exact (List.mergeSort_perm _ _).trans (List.reverse_perm _)
  refine ⟨?_, rfl, hbinary, hperm, ?_⟩
  · rw [listEntities_eq]
    exact stableSort_mergeSort _ _
  · rw [hbinary]
    exact (List.reverse_perm _).trans hperm

end TestCodes.TestUnitsNew
