import TestCodes.Lib.Bytes

/-! Records of a type word, a size word and as many bytes of data, one after
another. A type word of zero, or data that would run past the end, ends them. -/
namespace TestCodes

@[ext] structure Record where
  head : UInt16
  data : List UInt8
  head_ne_zero : head ≠ 0
  size_lt : data.length < 65536

namespace Record

def encode (r : Record) : List UInt8 :=
  wordBytes r.head ++ (wordBytes (UInt16.ofNat r.data.length) ++ r.data)

theorem encode_length (r : Record) : r.encode.length = 4 + r.data.length := by
  simp [encode]
  omega

/-- The record at the front and what follows it. The four bytes of a header are
not looked at when nothing follows them. -/
def next (xs : List UInt8) : Option (Record × List UInt8) :=
  if h : 4 < xs.length ∧ UInt16.ofNat (wordAt xs 0) ≠ 0 ∧ 4 + wordAt xs 2 ≤ xs.length then
    some (⟨UInt16.ofNat (wordAt xs 0), slice xs 4 (wordAt xs 2), h.2.1, by
      rw [slice_length xs h.2.2]
      exact wordAt_lt xs 2⟩, xs.drop (4 + wordAt xs 2))
  else none

theorem exists_next (xs : List UInt8) (h4 : 4 < xs.length)
    (h0 : UInt16.ofNat (wordAt xs 0) ≠ 0) (hle : 4 + wordAt xs 2 ≤ xs.length) :
    ∃ r, next xs = some (r, xs.drop (4 + wordAt xs 2)) ∧
      r.head = UInt16.ofNat (wordAt xs 0) ∧ r.data = slice xs 4 (wordAt xs 2) := by
  rw [next, dif_pos ⟨h4, h0, hle⟩]
  exact ⟨_, rfl, rfl, rfl⟩

theorem next_length {xs rest : List UInt8} {r : Record} (h : next xs = some (r, rest)) :
    rest.length < xs.length := by
  unfold next at h
  split at h
  · rename_i hc
    obtain ⟨-, rfl⟩ := Prod.mk.inj (Option.some.inj h)
    rw [List.length_drop]
    omega
  · cases h

theorem next_encode_append (r : Record) {rest : List UInt8} (h : rest ≠ []) :
    next (r.encode ++ rest) = some (r, rest) := by
  have hpos := List.length_pos_iff.mpr h
  have hhead : wordAt (r.encode ++ rest) 0 = r.head.toNat := by
    rw [encode, List.append_assoc, wordAt_wordBytes]
  have hsize : wordAt (r.encode ++ rest) 2 = r.data.length := by
    rw [encode, List.append_assoc, List.append_assoc]
    have hword := wordAt_append_right (wordBytes r.head)
      (wordBytes (UInt16.ofNat r.data.length) ++ (r.data ++ rest)) 0
    rw [wordAt_wordBytes, UInt16.toNat_ofNat_of_lt' r.size_lt] at hword
    exact hword
  have hdata : slice (r.encode ++ rest) 4 r.data.length = r.data := by
    rw [encode, ← List.append_assoc, List.append_assoc]
    exact (slice_append_left _ _ _).trans (List.take_left ..)
  have hdrop : (r.encode ++ rest).drop (4 + r.data.length) = rest := by
    rw [← encode_length, List.drop_left]
  have hlen : (r.encode ++ rest).length = 4 + r.data.length + rest.length := by
    rw [List.length_append, encode_length]
  rw [next, dif_pos]
  · congr 2
    · ext1
      · simp only [hhead, UInt16.ofNat_toNat]
      · simp only [hsize, hdata]
    · rw [hsize, hdrop]
  · rw [hhead, hsize, hlen, UInt16.ofNat_toNat]
    exact ⟨by omega, r.head_ne_zero, by omega⟩

theorem next_zeros (n : ℕ) : next (List.replicate n 0) = none := by
  rw [next, dif_neg]
  rintro ⟨-, hne, -⟩
  rw [wordAt_zeros] at hne
  exact hne rfl

def all (xs : List UInt8) : List Record :=
  match h : next xs with
  | none => []
  | some (r, rest) =>
      have := next_length h
      r :: all rest
termination_by xs.length

theorem all_of_next_none {xs : List UInt8} (h : next xs = none) : all xs = [] := by
  rw [all]
  split
  · rfl
  · rename_i hn
    rw [h] at hn
    cases hn

theorem all_of_next {xs rest : List UInt8} {r : Record} (h : next xs = some (r, rest)) :
    all xs = r :: all rest := by
  rw [all]
  split
  · rename_i hn
    rw [h] at hn
    cases hn
  · rename_i hn
    rw [h] at hn
    obtain ⟨rfl, rfl⟩ := Prod.mk.inj (Option.some.inj hn)
    rfl

/-- Records written before other bytes are read back, and then what those hold. -/
theorem all_encode_append (rs : List Record) {rest : List UInt8} (h : rest ≠ []) :
    all (rs.flatMap encode ++ rest) = rs ++ all rest := by
  induction rs with
  | nil => rfl
  | cons r rs ih =>
      rw [List.flatMap_cons, List.append_assoc, List.cons_append, ← ih]
      exact all_of_next (next_encode_append r (List.append_ne_nil_of_right_ne_nil _ h))

theorem all_zeros (n : ℕ) : all (List.replicate n 0) = [] := all_of_next_none (next_zeros n)

end Record

namespace Block
variable {n : ℕ}

def records (b : Block n) (i : ℕ) : List Record := Record.all (b.bytes.drop i)

theorem records_eq_nil {b : Block n} {i : ℕ}
    (h : i + 4 < n → UInt16.ofNat (wordAt b.bytes i) ≠ 0 →
      n < i + 4 + wordAt b.bytes (i + 2)) : b.records i = [] := by
  apply Record.all_of_next_none
  rw [Record.next, dif_neg]
  rintro ⟨h4, h0, hle⟩
  simp only [List.length_drop, wordAt_drop, Nat.add_zero, b.size_eq] at h4 h0 hle
  have hlt := h (by omega) h0
  omega

theorem records_eq_cons {b : Block n} {i : ℕ} (h4 : i + 4 < n)
    (h0 : UInt16.ofNat (wordAt b.bytes i) ≠ 0) (hle : i + 4 + wordAt b.bytes (i + 2) ≤ n) :
    ∃ r, b.records i = r :: b.records (i + 4 + wordAt b.bytes (i + 2)) ∧
      r.head = UInt16.ofNat (wordAt b.bytes i) ∧ r.data.length = wordAt b.bytes (i + 2) ∧
      r.data = b.read (i + 4) (wordAt b.bytes (i + 2)) := by
  have hlen : (b.bytes.drop i).length = n - i := by
    rw [List.length_drop, b.size_eq]
  obtain ⟨r, hn, hhead, hdata⟩ := Record.exists_next (b.bytes.drop i)
    (by omega) (by rwa [wordAt_drop]) (by rw [wordAt_drop]; omega)
  rw [slice_drop, wordAt_drop] at hdata
  refine ⟨r, ?_, ?_, ?_, hdata⟩
  · rw [records, Record.all_of_next hn, List.drop_drop, wordAt_drop, Nat.add_assoc, records]
  · rw [hhead, wordAt_drop, Nat.add_zero]
  · rw [hdata]
    exact b.read_length hle

end Block
end TestCodes
