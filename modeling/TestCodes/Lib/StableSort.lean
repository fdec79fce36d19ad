import TestCodes.Lib.OrderedIndex
import TestCodes.Lib.Partitioned

/-! Stable sorting by a key: a sequence has one sorted arrangement that leaves the
elements of each key in their order, and sorted insertion behind equal keys makes it. -/
namespace TestCodes

variable {E K : Type*} [LinearOrder K] {key : E → K}

/-- `s` has the elements of `l` by ascending keys, those of one key in their order. -/
structure StableSort (key : E → K) (l s : List E) : Prop where
  sorted : s.Pairwise fun a b => key a ≤ key b
  stable : ∀ k, s.filter (key · = k) = l.filter (key · = k)

namespace StableSort
variable {l s t : List E}

theorem nil : StableSort key [] [] := ⟨.nil, fun _ => rfl⟩

theorem mem_of_filter {l s : List E} (h : ∀ k, s.filter (key · = k) = l.filter (key · = k))
    {a : E} (ha : a ∈ s) : a ∈ l := by
  have hmem : a ∈ s.filter (key · = key a) := List.mem_filter.mpr ⟨ha, by simp⟩
  rw [h] at hmem
  exact List.mem_of_mem_filter hmem

/-- Two sorted lists in which every key has the same elements are the same. -/
theorem eq_of_filter (hs : s.Pairwise fun a b => key a ≤ key b)
    (ht : t.Pairwise fun a b => key a ≤ key b)
    (h : ∀ k, s.filter (key · = k) = t.filter (key · = k)) : s = t := by
  induction s generalizing t with
  | nil =>
      refine (List.eq_nil_iff_forall_not_mem.mpr fun a ha => ?_).symm
      exact List.not_mem_nil (mem_of_filter (fun k => (h k).symm) ha)
  | cons a s ih =>
      cases t with
      | nil => exact absurd (mem_of_filter h List.mem_cons_self) List.not_mem_nil
      | cons b t =>
          obtain ⟨ha, hs'⟩ := List.pairwise_cons.mp hs
          obtain ⟨hb, ht'⟩ := List.pairwise_cons.mp ht
          have hle : ∀ {x y : E} {xs : List E}, (∀ z ∈ xs, key x ≤ key z) → y ∈ x :: xs →
              key x ≤ key y := by
            intro x y xs hx hy
            rcases List.mem_cons.mp hy with rfl | hy
            · exact le_rfl
            · exact hx y hy
          have hkey : key a = key b := le_antisymm
            (hle ha (mem_of_filter (fun k => (h k).symm) List.mem_cons_self))
            (hle hb (mem_of_filter h List.mem_cons_self))
          have hhead := h (key b)
          rw [List.filter_cons_of_pos (by simpa using hkey), List.filter_cons_of_pos (by simp)]
            at hhead
          obtain ⟨rfl, -⟩ := List.cons.inj hhead
          refine congrArg (a :: ·) (ih hs' ht' fun k => ?_)
          have hk := h k
          by_cases hak : key a = k
          · rw [List.filter_cons_of_pos (by simpa using hak),
              List.filter_cons_of_pos (by simpa using hak)] at hk
            exact (List.cons.inj hk).2
          · rwa [List.filter_cons_of_neg (by simpa using hak),
              List.filter_cons_of_neg (by simpa using hak)] at hk

theorem unique (hs : StableSort key l s) (ht : StableSort key l t) : s = t :=
  eq_of_filter hs.sorted ht.sorted fun k => (hs.stable k).trans (ht.stable k).symm

theorem orderedInsert_split (s : List E) (e : E) :
    s.orderedInsert (fun a b => key a < key b) e =
      s.takeWhile (key · ≤ key e) ++ e :: s.dropWhile (key · ≤ key e) := by
  simpa only [not_lt] using List.orderedInsert_eq_take_drop (fun a b => key a < key b) e s

theorem insert (h : StableSort key l s) (e : E) :
    StableSort key (l ++ [e]) (s.orderedInsert (fun a b => key a < key b) e) where
  sorted := OrderedIndex.sorted_orderedInsert h.sorted e
  stable k := by
    have hparted := Partitioned.of_sorted h.sorted (key e)
    rw [orderedInsert_split, List.filter_append, List.filter_append, ← h.stable]
    have hsplit := (List.takeWhile_append_dropWhile (p := (key · ≤ key e)) (l := s)).symm
    conv_rhs => rw [hsplit]
    rw [List.filter_append, List.append_assoc]
    congr 1
    by_cases hk : key e = k
    · have hbehind : (s.dropWhile (key · ≤ key e)).filter (key · = k) = [] := by
        rw [hparted.dropWhile_eq_filter, List.filter_filter]
        refine List.filter_eq_nil_iff.mpr fun a _ => ?_
        simp only [← hk, Bool.and_eq_true, decide_eq_true_eq, Bool.not_eq_true', not_and]
        intro heq
        simpa using heq.le
      rw [List.filter_cons_of_pos (by simpa using hk), List.filter_cons_of_pos (by simpa using hk),
        hbehind]
      rfl
    · rw [List.filter_cons_of_neg (by simpa using hk), List.filter_cons_of_neg (by simpa using hk)]
      exact (List.append_nil _).symm

theorem foldl_insert (h : StableSort key l s) (es : List E) :
    StableSort key (l ++ es)
      (es.foldl (fun s e => s.orderedInsert (fun a b => key a < key b) e) s) := by
  induction es generalizing l s with
  | nil => rwa [List.append_nil]
  | cons e es ih =>
      rw [List.append_cons]
      exact ih (h.insert e)

end StableSort

theorem stableSort_mergeSort (key : E → K) (l : List E) :
    StableSort key l (l.mergeSort fun a b => key a ≤ key b) := by
  have htrans : ∀ a b c : E, decide (key a ≤ key b) = true → decide (key b ≤ key c) = true →
      decide (key a ≤ key c) = true := by
    intro a b c hab hbc
    exact decide_eq_true ((of_decide_eq_true hab).trans (of_decide_eq_true hbc))
  have htotal : ∀ a b : E, (decide (key a ≤ key b) || decide (key b ≤ key a)) = true := by
    intro a b
    simpa using le_total (key a) (key b)
  refine ⟨(List.pairwise_mergeSort htrans htotal l).imp of_decide_eq_true, fun k => ?_⟩
  have hclass : (l.filter (key · = k)).Pairwise fun a b => decide (key a ≤ key b) = true := by
    refine List.pairwise_of_forall_mem_list fun a ha b hb => ?_
    have hak : key a = k := by simpa using List.of_mem_filter ha
    have hbk : key b = k := by simpa using List.of_mem_filter hb
    exact decide_eq_true (hak.trans hbk.symm).le
  have hsub := (List.sublist_mergeSort htrans htotal hclass List.filter_sublist).filter (key · = k)
  simp only [List.filter_filter, Bool.and_self] at hsub
  exact (hsub.eq_of_length ((List.mergeSort_perm l _).filter _).length_eq.symm).symm

/-- Sorted insertion, one element after another, is the stable sort. -/
theorem foldl_orderedInsert (key : E → K) (l : List E) :
    l.foldl (fun s e => s.orderedInsert (fun a b => key a < key b) e) [] =
      l.mergeSort fun a b => key a ≤ key b :=
  (StableSort.nil.foldl_insert l).unique (stableSort_mergeSort key l)

end TestCodes
