import TestCodes.TestUnitsNew.DebugAssignString
import Mathlib.Data.List.Count

/-! The literals that `DebugAssignString` writes, as they are read. -/
namespace TestCodes.TestUnitsNew
open CharLiteral

/-- No null stands in front of another character. -/
def NulsLast (group : List UInt8) : Prop :=
  ∀ c ∈ group.dropWhile (· ≠ 0), c = 0

/-- Each character stands for itself, and the escape of a null is read behind all others. -/
def Verbatim (group : List UInt8) : Prop :=
  (∀ c ∈ group, Plain c) ∧ NulsLast group

theorem nulsLast_cons_zero (group : List UInt8) : NulsLast (0 :: group) ↔ ∀ c ∈ group, c = 0 := by
  rw [NulsLast, List.dropWhile_cons_of_neg (by decide), List.forall_mem_cons]
  exact and_iff_right rfl

theorem nulsLast_cons {c : UInt8} (hc : c ≠ 0) (group : List UInt8) :
    NulsLast (c :: group) ↔ NulsLast group := by
  unfold NulsLast
  rw [List.dropWhile_cons, if_pos (decide_eq_true hc)]

theorem nulsLast_append {x : List UInt8} (hx : 0 ∉ x) (group : List UInt8) :
    NulsLast (x ++ group) ↔ NulsLast group := by
  induction x with
  | nil => exact Iff.rfl
  | cons c x ih =>
      have hc : c ≠ 0 := fun h => hx (h ▸ List.mem_cons_self)
      rw [List.cons_append, nulsLast_cons hc, ih fun h => hx (List.mem_cons_of_mem c h)]

theorem nulsLast_of_not_mem {group : List UInt8} (h : 0 ∉ group) : NulsLast group := by
  rw [← List.append_nil group, nulsLast_append h]
  exact fun c hc => absurd hc List.not_mem_nil

theorem zeros_or_more (group : List UInt8) :
    (∃ m, group = List.replicate m 0) ∨
      ∃ m c y, c ≠ 0 ∧ group = List.replicate m 0 ++ c :: y := by
  induction group with
  | nil => exact .inl ⟨0, rfl⟩
  | cons c group ih =>
      by_cases hc : c = 0
      · rcases ih with ⟨m, rfl⟩ | ⟨m, d, y, hd, rfl⟩
        · exact .inl ⟨m + 1, by rw [hc, List.replicate_succ]⟩
        · exact .inr ⟨m + 1, d, y, hd, by rw [hc, List.replicate_succ, List.cons_append]⟩
      · exact .inr ⟨0, c, group, hc, rfl⟩

/-- The first nulls are the last characters, or another one stands behind them. -/
theorem zeros_last_or_more (group : List UInt8) :
    (∃ x m, 0 ∉ x ∧ group = x ++ List.replicate m 0) ∨
      ∃ x m c y, 0 ∉ x ∧ c ≠ 0 ∧ group = x ++ List.replicate (m + 1) 0 ++ c :: y := by
  induction group with
  | nil => exact .inl ⟨[], 0, List.not_mem_nil, rfl⟩
  | cons c group ih =>
      by_cases hc : c = 0
      · subst hc
        rcases zeros_or_more group with ⟨m, rfl⟩ | ⟨m, d, y, hd, rfl⟩
        · exact .inl ⟨[], m + 1, List.not_mem_nil, rfl⟩
        · exact .inr ⟨[], m, d, y, List.not_mem_nil, hd, rfl⟩
      · have hcons : ∀ {x : List UInt8}, 0 ∉ x → 0 ∉ c :: x :=
          fun hx => List.not_mem_cons_of_ne_of_not_mem (Ne.symm hc) hx
        rcases ih with ⟨x, m, hx, rfl⟩ | ⟨x, m, d, y, hx, hd, rfl⟩
        · exact .inl ⟨c :: x, m, hcons hx, rfl⟩
        · exact .inr ⟨c :: x, m, d, y, hcons hx, hd, rfl⟩

theorem nulsLast_zeros (m : ℕ) : NulsLast (List.replicate m 0) := by
  cases m with
  | zero => exact nulsLast_of_not_mem List.not_mem_nil
  | succ m => exact (nulsLast_cons_zero _).mpr fun c hc => List.eq_of_mem_replicate hc

theorem nulsLast_append_zeros {group : List UInt8} (zeros : ℕ) :
    NulsLast (group ++ List.replicate zeros 0) ↔ NulsLast group := by
  induction group with
  | nil => exact iff_of_true (nulsLast_zeros zeros) (nulsLast_zeros 0)
  | cons c group ih =>
      by_cases hc : c = 0
      · rw [hc, List.cons_append, nulsLast_cons_zero, nulsLast_cons_zero, List.forall_mem_append]
        exact and_iff_left fun c hc => List.eq_of_mem_replicate hc
      · rw [List.cons_append, nulsLast_cons hc, nulsLast_cons hc, ih]

/-! What stands in the literal. -/

theorem strValue_append (x y : List UInt8) : strValue (x ++ y) = strValue y ++ strValue x := by
  rw [strValue, List.reverse_append, List.flatMap_append]
  rfl

theorem strValue_of_not_mem {x : List UInt8} (hx : 0 ∉ x) : strValue x = x.reverse := by
  have hself : ∀ c ∈ x.reverse, (if c = 0 then escapedNul ++ [c] else [c]) = [c] := by
    intro c hc
    rw [List.mem_reverse] at hc
    exact if_neg (ne_of_mem_of_not_mem hc hx)
  rw [strValue, List.flatMap_congr hself, List.flatMap_singleton']

theorem strValue_cons {c : UInt8} (hc : c ≠ 0) (y : List UInt8) :
    strValue (c :: y) = strValue y ++ [c] := by
  rw [← List.singleton_append, strValue_append,
    strValue_of_not_mem fun h => hc (List.mem_singleton.mp h).symm]
  rfl

theorem strValue_zeros_succ (m : ℕ) :
    strValue (List.replicate (m + 1) 0) =
      backslash :: 0x30 :: 0 :: strValue (List.replicate m 0) := by
  rw [List.replicate_succ', strValue_append]
  rfl

variable {R : Reader} {x text : List UInt8}

theorem chars_zeros (m : ℕ) : R.chars (strValue (List.replicate m 0) ++ text) =
    (R.chars text).map (List.replicate (2 * m) 0 ++ ·) := by
  induction m with
  | zero => exact (congrFun Option.map_id (R.chars text)).symm
  | succ m ih =>
      have hzero : ∀ rest : List UInt8, ∀ c ∈ (0 :: rest).head?, ¬ IsOctal c := by
        rintro rest c ⟨⟩
        decide
      rw [strValue_zeros_succ]
      simp only [List.cons_append]
      rw [Reader.chars_escapedNul (hzero _), Reader.chars_plain (by decide), ih, Option.map_map,
        Option.map_map]
      rfl

/-! The characters of the string are `x`, then a null and others. The bytes begin with what has been
read of `x`, then a null and others. -/

theorem length_le_of_agree {width : ℕ} {cs tail rest : List UInt8} (hx : 0 ∉ x)
    (hwidth : x.length ≤ width)
    (h : ∀ i < width, (cs.reverse ++ 0 :: tail)[i]? = (x ++ rest)[i]?) :
    x.length ≤ cs.length := by
  by_contra hlt
  have hlt : cs.length < x.length := by omega
  have hat := h cs.length (by omega)
  rw [List.getElem?_append_right (by rw [List.length_reverse]), List.length_reverse, Nat.sub_self,
    List.getElem?_append_left hlt, List.getElem?_eq_getElem hlt] at hat
  have hzero : 0 = x[cs.length] := Option.some.inj hat
  exact hx (hzero ▸ List.getElem_mem hlt)

theorem behind_of_agree {width m : ℕ} {cs tail y : List UInt8} {c : UInt8} (hx : 0 ∉ x)
    (hcs : cs.length ≤ x.length) (hwidth : x.length + (m + 1) < width)
    (h : ∀ i < width, (cs.reverse ++ 0 :: tail)[i]? =
      (x ++ (List.replicate (m + 1) 0 ++ c :: y))[i]?) :
    tail[m]? = some c := by
  have hlen : cs.reverse.length = x.length := by
    rw [List.length_reverse]
    exact Nat.le_antisymm hcs (length_le_of_agree hx (by omega) h)
  have hat := h (x.length + (m + 1)) hwidth
  rw [List.getElem?_append_right (by omega), List.getElem?_append_right (by omega), hlen,
    Nat.add_sub_cancel_left, List.getElem?_append_right (by rw [List.length_replicate]),
    List.length_replicate, Nat.sub_self] at hat
  exact hat

/-- Without a null, what is read is not shorter than what has been written. -/
theorem length_le_of_read {cs : List UInt8} (hx : 0 ∉ x) (hread : R.chars x.reverse = some cs)
    (h : ∀ i < x.length,
      (cs.reverse ++ List.replicate x.length (Reader.extension cs))[i]? = x[i]?) :
    x.length ≤ cs.length := by
  rcases List.eq_nil_or_concat' x with rfl | ⟨y, e, rfl⟩
  · exact Nat.zero_le _
  rcases Reader.extension_cases cs with hext | ⟨c, rfl, hext⟩
  · rw [hext, List.length_append, List.length_singleton, List.replicate_succ] at h
    apply length_le_of_agree hx (by rw [List.length_append, List.length_singleton])
    rwa [List.append_nil]
  · -- the character's sign stands where the string's last one does
    by_contra hlt
    have hy : y ≠ [] := by
      rintro rfl
      exact hlt (Nat.le_refl 1)
    have hpos : 0 < y.length := List.length_pos_iff.mpr hy
    have hlen : (y ++ [e]).length = y.length + 1 := List.length_append
    have hat := h y.length (by omega)
    rw [List.getElem?_append_right (by exact hpos), List.getElem?_replicate_of_lt (by omega),
      List.getElem?_concat_length, hext] at hat
    obtain rfl := Option.some.inj hat
    rw [List.reverse_append, List.reverse_singleton, List.singleton_append,
      Reader.chars_plain (by decide)] at hread
    obtain ⟨ds, hds, hcons⟩ := Option.map_eq_some_iff.mp hread
    obtain ⟨-, rfl⟩ := List.cons.inj hcons
    exact hy (List.reverse_eq_nil_iff.mp (Reader.eq_nil_of_chars hds))

theorem length_of_reverse_read {cs : List UInt8} (h : R.chars x.reverse = some cs) :
    cs.length ≤ x.length := by
  have hle : cs.length ≤ x.reverse.length := (Reader.chars_length h).1
  rwa [List.length_reverse] at hle

/-- Behind a null, another character is not read where it has been written. -/
theorem not_read_behind {cs : List UInt8} {width m : ℕ} {c e : UInt8} {y : List UInt8}
    (hx : 0 ∉ x) (hc : c ≠ 0) (hwidth : x.length + (m + 1) < width)
    (hread : R.chars (strValue (x ++ (List.replicate (m + 1) 0 ++ c :: y))) = some cs) :
    ¬ ∀ i < width, (cs.reverse ++ List.replicate width e)[i]? =
      (x ++ (List.replicate (m + 1) 0 ++ c :: y))[i]? := by
  intro h
  rw [strValue_append, strValue_append, strValue_cons hc, strValue_of_not_mem hx,
    List.append_assoc] at hread
  have hhex : ∀ d ∈ (strValue (List.replicate (m + 1) 0) ++ x.reverse).head?, ¬ IsHex d := by
    rw [strValue_zeros_succ]
    rintro d ⟨⟩
    decide
  obtain ⟨cs₁, cs₂, rfl, hread | ⟨hlast, hread⟩⟩ := Reader.chars_split hhex hread
  · rw [chars_zeros] at hread
    obtain ⟨ds, hds, rfl⟩ := Option.map_eq_some_iff.mp hread
    have hread : (cs₁ ++ (List.replicate (2 * (m + 1)) 0 ++ ds)).reverse ++ List.replicate width e =
        ds.reverse ++ 0 :: (List.replicate (2 * m + 1) 0 ++
          (cs₁.reverse ++ List.replicate width e)) := by
      rw [List.reverse_append, List.reverse_append, List.reverse_replicate, Nat.mul_succ,
        List.replicate_succ]
      simp only [List.append_assoc, List.cons_append]
    rw [hread] at h
    have hbehind := behind_of_agree hx (length_of_reverse_read hds) hwidth h
    rw [List.getElem?_append_left (by rw [List.length_replicate]; omega),
      List.getElem?_replicate_of_lt (by omega)] at hbehind
    exact hc (Option.some.inj hbehind).symm
  · -- the backslash in front is an escaped one, and the escape a digit
    have hc : c = backslash := by
      rw [List.getLast?_append] at hlast
      exact Option.some.inj hlast
    rw [strValue_zeros_succ, List.cons_append, List.cons_append, List.cons_append,
      Reader.chars_backslash, R.escape_backslash, Option.bind_some, Reader.chars_plain (by decide),
      Reader.chars_plain (by decide), chars_zeros] at hread
    simp only [Option.map_map, Option.map_eq_some_iff, Function.comp_apply] at hread
    obtain ⟨ds, hds, rfl⟩ := hread
    have hread : (cs₁ ++ backslash :: 0x30 :: 0 :: (List.replicate (2 * m) 0 ++ ds)).reverse ++
        List.replicate width e = ds.reverse ++ 0 :: (List.replicate (2 * m) 0 ++
          0x30 :: (backslash :: (cs₁.reverse ++ List.replicate width e))) := by
      have hzeros : (0 :: (List.replicate (2 * m) 0 ++ ds)).reverse =
          ds.reverse ++ 0 :: List.replicate (2 * m) 0 := by
        rw [← List.cons_append, ← List.replicate_succ, List.reverse_append, List.reverse_replicate,
          List.replicate_succ]
      rw [List.reverse_append, List.reverse_cons, List.reverse_cons, hzeros]
      simp only [List.append_assoc, List.cons_append, List.nil_append]
    rw [hread] at h
    have hbehind := behind_of_agree hx (length_of_reverse_read hds) hwidth h
    rw [hc] at hbehind
    cases m with
    | zero => exact absurd (Option.some.inj hbehind) (by decide)
    | succ m =>
        rw [List.getElem?_append_left (by rw [List.length_replicate]; omega),
          List.getElem?_replicate_of_lt (by omega)] at hbehind
        exact absurd (Option.some.inj hbehind) (by decide)

theorem count_zero {m : ℕ} (hx : 0 ∉ x) : (x ++ List.replicate m 0).count 0 = m := by
  rw [List.count_append, List.count_eq_zero.mpr hx, List.count_replicate_self, Nat.zero_add]

theorem length_zeros_read (m : ℕ) (hx : 0 ∉ x) :
    (List.replicate (2 * m) 0 ++ x.reverse).length =
      (x ++ List.replicate m 0).length + (x ++ List.replicate m 0).count 0 := by
  rw [count_zero hx]
  simp only [List.length_append, List.length_replicate, List.length_reverse]
  omega

theorem verbatim_append_zeros {group : List UInt8} (zeros : ℕ) :
    Verbatim (group ++ List.replicate zeros 0) ↔ Verbatim group := by
  have hplain : ∀ c ∈ List.replicate zeros (0 : UInt8), Plain c := by
    intro c hc
    rw [List.eq_of_mem_replicate hc]
    decide
  unfold Verbatim
  rw [nulsLast_append_zeros, List.forall_mem_append, and_iff_left hplain]

theorem verbatim_iff {m : ℕ} (hx : 0 ∉ x) :
    Verbatim (x ++ List.replicate m 0) ↔ ∀ c ∈ x.reverse, Plain c := by
  rw [verbatim_append_zeros, Verbatim, and_iff_left (nulsLast_of_not_mem hx)]
  simp only [List.mem_reverse]

theorem verbatim_of_plain {group : List UInt8} (h : ∀ c ∈ group, Plain c) (hnul : 0 ∉ group) :
    Verbatim group :=
  ⟨h, nulsLast_of_not_mem hnul⟩

theorem lt_of_ne_zero {width i : ℕ} {buffer : List UInt8} {c : UInt8}
    (hzeros : ∀ c ∈ buffer.drop width, c = 0) (hi : buffer[i]? = some c) (hc : c ≠ 0) :
    i < width := by
  by_contra hge
  have hat : (buffer.drop width)[i - width]? = some c := by
    rwa [List.getElem?_drop, Nat.add_sub_cancel' (Nat.le_of_not_lt hge)]
  exact hc (hzeros c (List.mem_of_getElem? hat))

theorem verbatim_of_stored {width : ℕ} {buffer : List UInt8} (hle : width ≤ buffer.length)
    (hzeros : ∀ c ∈ buffer.drop width, c = 0)
    (h : R.stored width (strValue buffer) = some (buffer.take width)) :
    Verbatim buffer ∧ (R.long = true ∨ buffer.length + buffer.count 0 ≤ 4) := by
  obtain ⟨cs, hread, -, hlong, htake⟩ := Reader.stored_eq_some_iff.mp h
  have hat : ∀ i < width,
      (cs.reverse ++ List.replicate width (Reader.extension cs))[i]? = buffer[i]? := by
    intro i hi
    rw [← List.getElem?_take_of_lt hi, htake, List.getElem?_take_of_lt hi]
  obtain ⟨x, m, hx, rfl⟩ | ⟨x, m, c, y, hx, hc, rfl⟩ := zeros_last_or_more buffer
  · have hwidth : x.length ≤ width := by
      by_contra hlt
      have hlt : width < x.length := by omega
      have hmem : x[width] ≠ 0 := ne_of_mem_of_not_mem (List.getElem_mem hlt) hx
      refine (lt_irrefl width) (lt_of_ne_zero hzeros ?_ hmem)
      rw [List.getElem?_append_left hlt, List.getElem?_eq_getElem hlt]
    rw [strValue_append, strValue_of_not_mem hx, chars_zeros] at hread
    obtain ⟨ds, hds, rfl⟩ := Option.map_eq_some_iff.mp hread
    have hlen : x.length ≤ ds.length := by
      cases m with
      | zero =>
          rw [List.replicate_zero, List.append_nil] at hat hle
          obtain rfl := Nat.le_antisymm hwidth hle
          exact length_le_of_read hx hds hat
      | succ m =>
          rw [List.reverse_append, List.reverse_replicate, Nat.mul_succ, List.replicate_succ,
            List.append_assoc] at hat
          exact length_le_of_agree hx hwidth hat
    rw [← List.length_reverse] at hlen
    obtain ⟨hle', hsame⟩ := Reader.chars_length hds
    obtain ⟨rfl, hplain⟩ := hsame (Nat.le_antisymm hle' hlen)
    rw [length_zeros_read m hx] at hlong
    exact ⟨(verbatim_iff hx).mpr hplain, hlong⟩
  · rw [List.append_assoc] at hat hread hzeros
    have hwidth : x.length + (m + 1) < width := by
      apply lt_of_ne_zero hzeros _ hc
      rw [List.getElem?_append_right (Nat.le_add_right _ _), Nat.add_sub_cancel_left,
        List.getElem?_append_right (by rw [List.length_replicate]), List.length_replicate,
        Nat.sub_self]
      rfl
    exact absurd hat (not_read_behind hx hc hwidth hread)

theorem stored_of_verbatim {width : ℕ} {buffer : List UInt8} (hpos : 0 < width)
    (hle : width ≤ buffer.length) (h : Verbatim buffer)
    (hlong : R.long = true ∨ buffer.length + buffer.count 0 ≤ 4) :
    R.stored width (strValue buffer) = some (buffer.take width) := by
  obtain ⟨x, m, hx, rfl⟩ | ⟨x, m, c, y, hx, hc, rfl⟩ := zeros_last_or_more buffer
  · have hread : R.chars (strValue (x ++ List.replicate m 0)) =
        some (List.replicate (2 * m) 0 ++ x.reverse) := by
      rw [strValue_append, strValue_of_not_mem hx, chars_zeros,
        Reader.chars_of_plain ((verbatim_iff hx).mp h)]
      rfl
    have hlen := length_zeros_read m hx
    refine Reader.stored_eq_some_iff.mpr ⟨_, hread, ?_, by rwa [hlen], ?_⟩
    · apply List.ne_nil_of_length_pos
      omega
    · rw [List.reverse_append, List.reverse_reverse, List.reverse_replicate, Nat.two_mul,
        ← List.replicate_append_replicate, ← List.append_assoc,
        List.append_assoc _ _ (.replicate _ _), List.take_append_of_le_length hle]
  · have hlast := h.2
    rw [List.append_assoc, nulsLast_append hx, List.replicate_succ, List.cons_append,
      nulsLast_cons_zero] at hlast
    exact absurd (hlast c (by simp)) hc

/-- The literal of a buffer stores its first bytes. -/
theorem stored_strValue_iff {width : ℕ} {buffer : List UInt8} (hpos : 0 < width)
    (hle : width ≤ buffer.length) (hzeros : ∀ c ∈ buffer.drop width, c = 0) :
    R.stored width (strValue buffer) = some (buffer.take width) ↔
      Verbatim buffer ∧ (R.long = true ∨ buffer.length + buffer.count 0 ≤ 4) :=
  ⟨verbatim_of_stored hle hzeros, fun h => stored_of_verbatim hpos hle h.1 h.2⟩

end TestCodes.TestUnitsNew
