import TestCodes.Lib.Partitioned

/-! Insertion by position: a linear scan and a binary search stop where the front of a
list ends, and an element put there stands between the front and the rest. -/
namespace TestCodes

variable {α : Type*} {p : α → Bool} {l : List α}

/-- `std::lower_bound` over `count` elements from `first` on: the part still searched is
halved until it is empty. -/
def lowerBound (p : α → Bool) (l : List α) (first count : Nat) : Nat :=
  if 0 < count then
    let half := count / 2
    if l[first + half]?.any p then lowerBound p l (first + half + 1) (count - (half + 1))
    else lowerBound p l first half
  else first
termination_by count

theorem Partitioned.getElem_iff (h : Partitioned p l) (i : Nat) (hi : i < l.length) :
    p l[i] = true ↔ i < (l.takeWhile p).length := by
  induction l generalizing i with
  | nil => cases hi
  | cons a l ih =>
      obtain ⟨ha, hl⟩ := List.pairwise_cons.mp h
      by_cases hp : p a
      · rw [List.takeWhile_cons_of_pos hp]
        cases i with
        | zero => simpa using hp
        | succ i => simpa using ih hl i (Nat.lt_of_succ_lt_succ hi)
      · rw [List.takeWhile_cons_of_neg hp]
        cases i with
        | zero => simpa using hp
        | succ i => simpa using fun hpi => hp (ha _ (List.getElem_mem _) hpi)

/-- The front ends within the part still searched. -/
theorem Partitioned.lowerBound_eq (h : Partitioned p l) (first count : Nat)
    (hin : first + count ≤ l.length) (hlow : first ≤ (l.takeWhile p).length)
    (hhigh : (l.takeWhile p).length ≤ first + count) :
    lowerBound p l first count = (l.takeWhile p).length := by
  induction first, count using lowerBound.induct p l with
  | case1 first count hpos half hmid ih =>
      have hlt : first + half < l.length := by omega
      have hfront := (h.getElem_iff (first + half) hlt).mp
        (by simpa [List.getElem?_eq_getElem hlt] using hmid)
      rw [lowerBound, if_pos hpos, if_pos hmid]
      exact ih (by omega) (by omega) (by omega)
  | case2 first count hpos half hmid ih =>
      have hlt : first + half < l.length := by omega
      have hrest := mt (h.getElem_iff (first + half) hlt).mpr
        (by simpa [List.getElem?_eq_getElem hlt] using hmid)
      rw [lowerBound, if_pos hpos, if_neg hmid]
      exact ih (by omega) hlow (by omega)
  | case3 first count hpos =>
      rw [lowerBound, if_neg hpos]
      omega

theorem Partitioned.lowerBound_length (h : Partitioned p l) :
    lowerBound p l 0 l.length = (l.takeWhile p).length := by
  have hfront := (List.takeWhile_sublist p (l := l)).length_le
  exact h.lowerBound_eq 0 l.length (by omega) (Nat.zero_le _) (by omega)

theorem length_takeWhile_eq_findIdx (p : α → Bool) (l : List α) :
    (l.takeWhile p).length = l.findIdx fun a => !p a := by
  rw [List.takeWhile_eq_take_findIdx_not, List.length_take]
  exact Nat.min_eq_left List.findIdx_le_length

theorem insertIdx_takeWhile (p : α → Bool) (l : List α) (e : α) :
    l.insertIdx (l.takeWhile p).length e = l.takeWhile p ++ e :: l.dropWhile p := by
  induction l with
  | nil => rfl
  | cons a l ih =>
      by_cases hp : p a
      · rw [List.takeWhile_cons_of_pos hp, List.dropWhile_cons_of_pos hp, List.length_cons,
          List.insertIdx_succ_cons, ih, List.cons_append]
      · rw [List.takeWhile_cons_of_neg hp, List.dropWhile_cons_of_neg hp]
        rfl

end TestCodes
