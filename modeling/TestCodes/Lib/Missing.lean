import Mathlib.Order.Comparable
import Mathlib.Order.RelClasses

/-! An order on values taken to values that may be missing: a missing one is comparable
with nothing. What was a strict weak order is one only as far as no value is missing. -/
namespace TestCodes

variable {α : Type*} {r : α → α → Prop}

/-- Both values are there, in this order. -/
def Both (r : α → α → Prop) : Option α → Option α → Prop
  | some a, some b => r a b
  | _, _ => False

namespace Both

theorem irrefl [IsStrictOrder α r] (a : Option α) : ¬ Both r a a := by
  cases a with
  | none => exact id
  | some a => exact irrefl_of r a

theorem trans [IsStrictOrder α r] {a b c : Option α} (hab : Both r a b) (hbc : Both r b c) :
    Both r a c := by
  cases a with
  | none => cases hab
  | some a =>
      cases b with
      | none => cases hab
      | some b =>
          cases c with
          | none => cases hbc
          | some c => exact trans_of r hab hbc

theorem asymm [IsStrictOrder α r] {a b : Option α} (hab : Both r a b) : ¬ Both r b a :=
  fun hba => irrefl a (hab.trans hba)

theorem incomp_none_left (b : Option α) : IncompRel (Both r) none b := by
  cases b with
  | none => exact ⟨id, id⟩
  | some b => exact ⟨id, id⟩

theorem incomp_none_right (a : Option α) : IncompRel (Both r) a none :=
  (incomp_none_left a).symm

theorem incomp_some {a b : α} : IncompRel (Both r) (some a) (some b) ↔ IncompRel r a b :=
  Iff.rfl

theorem incomp_trans [IsStrictWeakOrder α r] {a b c : Option α} (hb : b ≠ none)
    (hab : IncompRel (Both r) a b) (hbc : IncompRel (Both r) b c) : IncompRel (Both r) a c := by
  cases a with
  | none => exact incomp_none_left c
  | some a =>
      cases c with
      | none => exact incomp_none_right (some a)
      | some c =>
          cases b with
          | none => exact absurd rfl hb
          | some b => exact IsStrictWeakOrder.incomp_trans a b c hab hbc

/-- With two values in order, a missing one between them ends the strict weak order. -/
theorem not_isStrictWeakOrder {a b : α} (h : r a b) : ¬ IsStrictWeakOrder (Option α) (Both r) := by
  intro hweak
  have hincomp := hweak.incomp_trans (some a) none (some b) (incomp_none_right (some a))
    (incomp_none_left (some b))
  exact hincomp.1 h

end Both
end TestCodes
