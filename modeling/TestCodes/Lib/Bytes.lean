import Mathlib.Data.List.GetD

/-! Bytes in memory: little-endian words, ranges read from a list of bytes and
written over it, and blocks whose size no write changes. -/
namespace TestCodes

def wordAt (xs : List UInt8) (i : ℕ) : ℕ := (xs.getD i 0).toNat + 256 * (xs.getD (i + 1) 0).toNat

def wordBytes (w : UInt16) : List UInt8 := [UInt8.ofNat w.toNat, UInt8.ofNat (w.toNat / 256)]

@[simp] theorem wordBytes_length (w : UInt16) : (wordBytes w).length = 2 := rfl

theorem wordAt_take (xs : List UInt8) {i n : ℕ} (h : i + 1 < n) :
    wordAt (xs.take n) i = wordAt xs i := by
  simp [wordAt, List.getD_eq_getElem?_getD, h, Nat.lt_of_succ_lt h]

theorem wordAt_drop (xs : List UInt8) (i j : ℕ) : wordAt (xs.drop i) j = wordAt xs (i + j) := by
  simp [wordAt, List.getD_eq_getElem?_getD, Nat.add_assoc]

theorem wordAt_append_right (xs ys : List UInt8) (i : ℕ) :
    wordAt (xs ++ ys) (xs.length + i) = wordAt ys i := by
  rw [← wordAt_drop, List.drop_left]

theorem wordAt_lt (xs : List UInt8) (i : ℕ) : wordAt xs i < 65536 := by
  have hlow := (xs.getD i 0).toNat_lt
  have hhigh := (xs.getD (i + 1) 0).toNat_lt
  unfold wordAt
  omega

theorem wordAt_zeros (n i : ℕ) : wordAt (List.replicate n 0) i = 0 := by
  simp only [wordAt, List.getD_eq_getElem?_getD, List.getElem?_getD_replicate_default_eq]
  rfl

@[simp] theorem wordAt_wordBytes (w : UInt16) (xs : List UInt8) :
    wordAt (wordBytes w ++ xs) 0 = w.toNat := by
  have hw := w.toNat_lt
  simp [wordAt, wordBytes]
  omega

section Ranges
variable {α : Type*}

/-- The `k` elements at `i`, or as many of them as there are. -/
def slice (xs : List α) (i k : ℕ) : List α := (xs.drop i).take k

/-- `ys` written over `xs` at `i`; what would fall behind the end is dropped. -/
def overwrite (xs : List α) (i : ℕ) (ys : List α) : List α :=
  xs.mapIdx fun j x => if i ≤ j then ys.getD (j - i) x else x

theorem slice_getElem? (xs : List α) (i k j : ℕ) :
    (slice xs i k)[j]? = if j < k then xs[i + j]? else none := by
  rw [slice, List.getElem?_take]
  split
  · rw [List.getElem?_drop]
  · rfl

theorem slice_length (xs : List α) {i k : ℕ} (h : i + k ≤ xs.length) :
    (slice xs i k).length = k := by
  rw [slice, List.length_take, List.length_drop]
  omega

theorem slice_drop (xs : List α) (i j k : ℕ) : slice (xs.drop i) j k = slice xs (i + j) k := by
  rw [slice, List.drop_drop, slice]

theorem slice_append_left (xs ys : List α) (i : ℕ) :
    slice (xs ++ ys) xs.length i = ys.take i := by
  rw [slice, List.drop_left]

@[simp] theorem overwrite_length (xs : List α) (i : ℕ) (ys : List α) :
    (overwrite xs i ys).length = xs.length := by
  simp [overwrite]

theorem overwrite_getElem?_of_out (xs : List α) {i j : ℕ} {ys : List α}
    (h : j < i ∨ i + ys.length ≤ j) : (overwrite xs i ys)[j]? = xs[j]? := by
  rw [overwrite, List.getElem?_mapIdx]
  cases xs[j]? with
  | none => rfl
  | some x =>
      cases h with
      | inl hlt => simp [Nat.not_le.mpr hlt]
      | inr hle => simp [show ys.length ≤ j - i by omega]

theorem overwrite_getElem?_of_in (xs : List α) {i j : ℕ} {ys : List α}
    (hi : i ≤ j) (hj : j < i + ys.length) (hx : j < xs.length) :
    (overwrite xs i ys)[j]? = ys[j - i]? := by
  have hys : j - i < ys.length := by omega
  rw [overwrite, List.getElem?_mapIdx, List.getElem?_eq_getElem hx, List.getElem?_eq_getElem hys]
  simp [hi, hys]

theorem slice_overwrite_self (xs : List α) {i : ℕ} {ys : List α}
    (h : i + ys.length ≤ xs.length) : slice (overwrite xs i ys) i ys.length = ys := by
  apply List.ext_getElem?
  intro j
  rw [slice_getElem?]
  split
  · rename_i hj
    rw [overwrite_getElem?_of_in xs (by omega) (by omega) (by omega), Nat.add_sub_cancel_left]
  · rename_i hj
    exact (List.getElem?_eq_none (Nat.not_lt.mp hj)).symm

theorem slice_overwrite_of_disjoint (xs : List α) {i j k : ℕ} {ys : List α}
    (h : i + ys.length ≤ j ∨ j + k ≤ i) :
    slice (overwrite xs i ys) j k = slice xs j k := by
  apply List.ext_getElem?
  intro m
  rw [slice_getElem?, slice_getElem?]
  split
  · exact overwrite_getElem?_of_out xs (by omega)
  · rfl

theorem overwrite_comm (xs : List α) {i j : ℕ} {ys zs : List α}
    (h : i + ys.length ≤ j ∨ j + zs.length ≤ i) :
    overwrite (overwrite xs i ys) j zs = overwrite (overwrite xs j zs) i ys := by
  apply List.ext_getElem?
  intro m
  by_cases hlen : m < xs.length
  · by_cases hy : i ≤ m ∧ m < i + ys.length
    · rw [overwrite_getElem?_of_out _ (by omega), overwrite_getElem?_of_in xs hy.1 hy.2 hlen,
        overwrite_getElem?_of_in _ hy.1 hy.2 (by rwa [overwrite_length])]
    · rw [overwrite_getElem?_of_out (overwrite xs j zs) (by omega)]
      by_cases hz : j ≤ m ∧ m < j + zs.length
      · rw [overwrite_getElem?_of_in _ hz.1 hz.2 (by rwa [overwrite_length]),
          overwrite_getElem?_of_in xs hz.1 hz.2 hlen]
      · rw [overwrite_getElem?_of_out _ (by omega), overwrite_getElem?_of_out _ (by omega),
          overwrite_getElem?_of_out _ (by omega)]
  · rw [List.getElem?_eq_none, List.getElem?_eq_none] <;>
      simp only [overwrite_length] <;> omega

theorem overwrite_append (xs zs : List α) {ys : List α} (h : ys.length ≤ zs.length) :
    overwrite (xs ++ zs) xs.length ys = xs ++ ys ++ zs.drop ys.length := by
  apply List.ext_getElem?
  intro j
  by_cases hx : j < xs.length
  · rw [overwrite_getElem?_of_out _ (.inl hx), List.append_assoc,
      List.getElem?_append_left hx, List.getElem?_append_left hx]
  · rw [List.append_assoc, List.getElem?_append_right (Nat.not_lt.mp hx)]
    by_cases hy : j < xs.length + ys.length
    · rw [overwrite_getElem?_of_in _ (by omega) hy (by rw [List.length_append]; omega),
        List.getElem?_append_left (by omega)]
    · rw [overwrite_getElem?_of_out _ (by omega), List.getElem?_append_right (by omega),
        List.getElem?_append_right (by omega), List.getElem?_drop]
      congr 1
      omega

end Ranges

@[ext] structure Block (n : ℕ) where
  bytes : List UInt8
  size_eq : bytes.length = n
  deriving DecidableEq

namespace Block
variable {n : ℕ}

def zeroed (n : ℕ) : Block n := ⟨List.replicate n 0, List.length_replicate⟩

def read (b : Block n) (i k : ℕ) : List UInt8 := slice b.bytes i k

def write (b : Block n) (i : ℕ) (ys : List UInt8) : Block n :=
  ⟨overwrite b.bytes i ys, (overwrite_length _ _ _).trans b.size_eq⟩

theorem read_length (b : Block n) {i k : ℕ} (h : i + k ≤ n) : (b.read i k).length = k :=
  slice_length _ (Nat.le_trans h (Nat.le_of_eq b.size_eq.symm))

theorem read_write_self (b : Block n) {i k : ℕ} {ys : List UInt8} (hk : ys.length = k)
    (h : i + k ≤ n) : (b.write i ys).read i k = ys := by
  subst hk
  exact slice_overwrite_self b.bytes (Nat.le_trans h (Nat.le_of_eq b.size_eq.symm))

theorem read_write_of_disjoint (b : Block n) {i j k : ℕ} {ys : List UInt8}
    (h : i + ys.length ≤ j ∨ j + k ≤ i) : (b.write i ys).read j k = b.read j k :=
  slice_overwrite_of_disjoint b.bytes h

theorem write_behind (b : Block n) {xs zs : List UInt8} (hb : b.bytes = xs ++ zs)
    (ys : List UInt8) (h : ys.length ≤ zs.length) :
    (b.write xs.length ys).bytes = xs ++ ys ++ zs.drop ys.length :=
  (congrArg (fun bs => overwrite bs xs.length ys) hb).trans (overwrite_append xs zs h)

theorem write_comm (b : Block n) {i j : ℕ} {ys zs : List UInt8}
    (h : i + ys.length ≤ j ∨ j + zs.length ≤ i) :
    (b.write i ys).write j zs = (b.write j zs).write i ys :=
  Block.ext (overwrite_comm b.bytes h)

end Block
end TestCodes
