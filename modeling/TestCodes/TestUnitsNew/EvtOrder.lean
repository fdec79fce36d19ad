import TestCodes.Lib.Missing
import TestCodes.TestUnitsNew.VectorPqueuePerformance

/-! What `myEvtComparsion` is as an order: a strict weak order of the events, and of the
pointers as far as the null pointer is not between two events. -/
namespace TestCodes.TestUnitsNew

namespace MyEvtComparsion
variable {comparsion : MyEvtComparsion}

def precedes (comparsion : MyEvtComparsion) (lhs rhs : MyEvt) : Prop :=
  match comparsion.myOrder with
  | .descending => lhs.dwNextEventTime > rhs.dwNextEventTime
  | .ascending => lhs.dwNextEventTime < rhs.dwNextEventTime

def less (comparsion : MyEvtComparsion) (lhs rhs : Option MyEvt) : Prop :=
  comparsion.call lhs rhs = true

theorem less_eq (comparsion : MyEvtComparsion) : comparsion.less = Both comparsion.precedes := by
  funext lhs rhs
  cases lhs with
  | none => exact eq_false Bool.false_ne_true
  | some lhs =>
      cases rhs with
      | none => exact eq_false Bool.false_ne_true
      | some rhs =>
          unfold less call precedes
          cases comparsion.myOrder with
          | ascending => exact decide_eq_true_eq
          | descending => exact decide_eq_true_eq

def time (e : MyEvt) : ℕ := e.dwNextEventTime.toNat

instance isStrictWeakOrder_precedes (comparsion : MyEvtComparsion) :
    IsStrictWeakOrder MyEvt comparsion.precedes := by
  have hlt : IsStrictWeakOrder ℕ (· < ·) := isStrictWeakOrder_of_isOrderConnected
  have hgt : IsStrictWeakOrder ℕ (· > ·) := isStrictWeakOrder_of_isOrderConnected
  unfold precedes
  cases comparsion.myOrder with
  | ascending => exact inferInstanceAs (IsStrictWeakOrder MyEvt (Order.Preimage time (· < ·)))
  | descending => exact inferInstanceAs (IsStrictWeakOrder MyEvt (Order.Preimage time (· > ·)))

theorem incomp_precedes {lhs rhs : MyEvt} :
    IncompRel comparsion.precedes lhs rhs ↔ lhs.dwNextEventTime = rhs.dwNextEventTime := by
  have htime : IncompRel comparsion.precedes lhs rhs ↔
      ¬ time lhs < time rhs ∧ ¬ time rhs < time lhs := by
    unfold IncompRel precedes
    cases comparsion.myOrder with
    | ascending => exact Iff.rfl
    | descending => exact and_comm
  rw [htime, ← UInt32.toNat_inj]
  unfold time
  omega

end MyEvtComparsion

open MyEvtComparsion

/-- What the comparison is for `priority_queue` and `lower_bound`: a strict order of all
pointers, under which incomparable ones are as one as long as no null pointer stands
between two events. -/
structure WeaklyOrders (comparsion : MyEvtComparsion) : Prop where
  irrefl : ∀ a, ¬ comparsion.less a a
  asymm : ∀ a b, comparsion.less a b → ¬ comparsion.less b a
  trans : ∀ a b c, comparsion.less a b → comparsion.less b c → comparsion.less a c
  incomp_trans : ∀ a b c, IncompRel comparsion.less a b → IncompRel comparsion.less b c →
    b ≠ none → IncompRel comparsion.less a c
  incomp_null : ∀ a c : MyEvt, IncompRel comparsion.less (some a) none ∧
    IncompRel comparsion.less none (some c) ∧
    (IncompRel comparsion.less (some a) (some c) ↔ a.dwNextEventTime = c.dwNextEventTime)

/-- Under both rules the comparison is a strict order, the null pointer included, and
incomparability is transitive over every pointer but the null one. -/
theorem evt_comparsion_weakly_orders (comparsion : MyEvtComparsion) :
    WeaklyOrders comparsion := by
  constructor
  all_goals rw [less_eq]
  · exact Both.irrefl
  · exact fun a b => Both.asymm
  · exact fun a b c => Both.trans
  · exact fun a b c hab hbc hb => Both.incomp_trans hb hab hbc
  · intro a c
    refine ⟨Both.incomp_none_right (some a), Both.incomp_none_left (some c), ?_⟩
    exact Both.incomp_some.trans incomp_precedes

/-- An event due at 2 and one due at 1, with the null pointer between them. -/
theorem null_not_strict_weak :
    ¬ ∀ comparsion : MyEvtComparsion, IsStrictWeakOrder (Option MyEvt) comparsion.less := by
  intro h
  have hweak := h {}
  have hprecedes : precedes {} ⟨2⟩ ⟨1⟩ := show (2 : UInt32) > 1 by decide
  rw [less_eq] at hweak
  exact Both.not_isStrictWeakOrder hprecedes hweak

end TestCodes.TestUnitsNew
