import Mathlib.Data.List.TakeWhile
import Mathlib.Order.Basic

/-! Lists in which what satisfies a predicate stands in front: taking from the front
is filtering, and a binary search finds where the front ends. -/
namespace TestCodes

variable {α β : Type*} {p : α → Bool} {l : List α}

def Partitioned (p : α → Bool) (l : List α) : Prop :=
  l.Pairwise fun a b => p b = true → p a = true

namespace Partitioned

theorem of_sorted [Preorder β] [DecidableLE β] {key : α → β}
    (hl : l.Pairwise fun a b => key a ≤ key b) (bound : β) :
    Partitioned (fun a => decide (key a ≤ bound)) l :=
  hl.imp fun hab hb => decide_eq_true (hab.trans (of_decide_eq_true hb))

theorem takeWhile_eq_filter (h : Partitioned p l) : l.takeWhile p = l.filter p := by
  induction l with
  | nil => rfl
  | cons a l ih =>
      obtain ⟨ha, hl⟩ := List.pairwise_cons.mp h
      by_cases hp : p a
      · rw [List.takeWhile_cons_of_pos hp, List.filter_cons_of_pos hp, ih hl]
      · rw [List.takeWhile_cons_of_neg hp, List.filter_cons_of_neg hp]
        exact (List.filter_eq_nil_iff.mpr fun b hb hpb => hp (ha b hb hpb)).symm

theorem dropWhile_eq_filter (h : Partitioned p l) : l.dropWhile p = l.filter fun a => !p a := by
  induction l with
  | nil => rfl
  | cons a l ih =>
      obtain ⟨ha, hl⟩ := List.pairwise_cons.mp h
      by_cases hp : p a
      · rw [List.dropWhile_cons_of_pos hp, List.filter_cons_of_neg (by simpa using hp), ih hl]
      · have hall : ∀ b ∈ a :: l, (!p b) = true := by
          refine List.forall_mem_cons.mpr ⟨by simpa using hp, fun b hb => ?_⟩
          simpa using fun hpb => hp (ha b hb hpb)
        rw [List.dropWhile_cons_of_neg hp, List.filter_eq_self.mpr hall]

end Partitioned
end TestCodes
