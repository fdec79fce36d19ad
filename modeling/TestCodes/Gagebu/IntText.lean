import TestCodes.Gagebu.Ledger

/-! The text of a number, and what its characters are as the memory of a number: three
numbers start with themselves. -/
namespace TestCodes.Gagebu

/-! The four bytes of an `int`. -/

theorem toInt_intAt (xs : List UInt8) (i : ℕ) :
    (intAt xs i).toInt = ((wordAt xs i + 65536 * wordAt xs (i + 2) : ℕ) : ℤ).bmod (2 ^ 32) :=
  Int32.toInt_ofNat

theorem intAt_drop {xs ys : List UInt8} {i : ℕ} {b0 b1 b2 b3 : UInt8}
    (h : xs.drop i = b0 :: b1 :: b2 :: b3 :: ys) : intAt xs i =
      .ofNat (b0.toNat + 256 * b1.toNat + 65536 * (b2.toNat + 256 * b3.toNat)) := by
  have hlow : wordAt xs i = wordAt (xs.drop i) 0 := (wordAt_drop xs i 0).symm
  rw [intAt, hlow, ← wordAt_drop xs i 2, h]
  rfl

theorem flag_ofBytes {xs ys : List UInt8} {b : UInt8} (h : xs = b :: ys) :
    (MONEY.ofBytes xs).flag = .ofNat 3 b.toNat := by
  rw [h]
  rfl

theorem toInt_intAt_of_lt {xs : List UInt8} {i : ℕ} (h : wordAt xs (i + 2) < 32768) :
    (intAt xs i).toInt = wordAt xs i + 65536 * wordAt xs (i + 2) := by
  have hlow := wordAt_lt xs i
  rw [toInt_intAt, Int.bmod_eq_of_le (by omega) (by omega)]
  push_cast
  rfl

def Printed (c : UInt8) : Prop := 0 < c.toNat ∧ c.toNat < 255

instance : DecidablePred Printed := fun _ => inferInstanceAs (Decidable (_ ∧ _))

theorem intAt_large {xs : List UInt8} (h : ∀ c ∈ xs, Printed c) {i : ℕ}
    (hi : i + 3 < xs.length) : (intAt xs i).toInt < -1000 ∨ 1000 ≤ (intAt xs i).toInt := by
  obtain ⟨hpos, hlt⟩ := h xs[i + 3] (List.getElem_mem hi)
  have hlow := wordAt_lt xs i
  have hbyte := (xs.getD (i + 2) 0).toNat_lt
  have hhigh : wordAt xs (i + 2) = (xs.getD (i + 2) 0).toNat + 256 * xs[i + 3].toNat := by
    rw [wordAt, List.getD_eq_getElem?_getD (l := xs) (i := i + 2 + 1),
      List.getElem?_eq_getElem hi, Option.getD_some]
  rw [toInt_intAt, Int.bmod_def]
  split <;> omega

/-! The text of a number. -/

theorem intText_length_lt {value : Int32} (h : (intText value).length < 4) :
    -1000 < value.toInt ∧ value.toInt < 1000 := by
  unfold intText at h
  have hdecimal : (decimal value.toInt.natAbs).length ≤ 3 := by
    split at h
    · rw [List.length_cons] at h
      omega
    · omega
  have hlt := (decimal_length_le_iff (by decide)).mp hdecimal
  omega

theorem intText_length_pos (value : Int32) : 0 < (intText value).length := by
  unfold intText
  split
  · exact Nat.succ_pos _
  · exact decimal_length_pos _

theorem intText_printed (value : Int32) : ∀ c ∈ intText value, Printed c := by
  have hdecimal : ∀ n, ∀ c ∈ decimal n, Printed c := by
    intro n c hc
    have hdigit := decimal_digit hc
    exact ⟨by omega, by omega⟩
  unfold intText
  split
  · exact List.forall_mem_cons.mpr ⟨by decide, hdecimal _⟩
  · exact hdecimal _

/-! The numbers of which the first four digits are the number in memory. -/

def selfReading : List Int32 := [809054264, 859387192, 942814265]

theorem decimal_four {a : ℕ} (hlow : 1000 ≤ a) (hhigh : a < 10000) : decimal a =
    [asciiDigit (a / 1000), asciiDigit (a / 100 % 10), asciiDigit (a / 10 % 10),
      asciiDigit (a % 10)] := by
  rw [decimal_of_le (by omega), decimal_of_le (by omega), decimal_of_le (by omega),
    decimal_of_lt (by omega)]
  simp only [Nat.div_div_eq_div_mul]
  rfl

theorem toNat_asciiDigit {d : ℕ} (h : d < 10) : (asciiDigit d).toNat = 48 + d :=
  UInt8.toNat_ofNat_of_lt (by unfold UInt8.size; omega)

def inMemory (d0 d1 d2 d3 : ℕ) : ℕ := 808464432 + (d0 + 256 * d1 + 65536 * d2 + 16777216 * d3)

theorem intAt_decimal {a : ℕ} (hlow : 1000 ≤ a) (hhigh : a < 10000) (xs : List UInt8) :
    (intAt (decimal a ++ xs) 0).toInt =
      inMemory (a / 1000) (a / 100 % 10) (a / 10 % 10) (a % 10) := by
  have h0 := toNat_asciiDigit (d := a / 1000) (by omega)
  have h1 := toNat_asciiDigit (d := a / 100 % 10) (by omega)
  have h2 := toNat_asciiDigit (d := a / 10 % 10) (by omega)
  have h3 := toNat_asciiDigit (d := a % 10) (by omega)
  have hw0 : wordAt (decimal a ++ xs) 0 =
      (asciiDigit (a / 1000)).toNat + 256 * (asciiDigit (a / 100 % 10)).toNat := by
    rw [decimal_four hlow hhigh]
    rfl
  have hw2 : wordAt (decimal a ++ xs) (0 + 2) =
      (asciiDigit (a / 10 % 10)).toNat + 256 * (asciiDigit (a % 10)).toNat := by
    rw [decimal_four hlow hhigh]
    rfl
  rw [toInt_intAt_of_lt (by omega), hw0, hw2, inMemory]
  omega

/-- Four digits that are the first of the nine of their number in memory; no number in
memory begins with less than an eight. -/
theorem inMemory_self : ∀ high : Fin 2, ∀ d1 d2 d3 : Fin 10,
    inMemory (8 + high) d1 d2 d3 / 100000 = 1000 * (8 + high) + 100 * d1 + 10 * d2 + d3 →
    inMemory (8 + high) d1 d2 d3 ∈ [809054264, 859387192, 942814265] := by
  decide +kernel

/-- A number that its first four digits are in memory has nine of them. -/
theorem self_reading {a n k : ℕ} (hlow : 1000 ≤ a) (hhigh : a < 10000) (ha : n / 10 ^ k = a)
    (hn : n = inMemory (a / 1000) (a / 100 % 10) (a / 10 % 10) (a % 10)) :
    n ∈ [809054264, 859387192, 942814265] := by
  have hrange : 808464432 ≤ n ∧ n < 1000000000 := by
    unfold inMemory at hn
    omega
  have hpow : 0 < 10 ^ k := Nat.pow_pos (by decide)
  have hle : 1000 * 10 ^ k ≤ n := (Nat.le_div_iff_mul_le hpow).mp (by omega)
  have hlt : n < 10000 * 10 ^ k := (Nat.div_lt_iff_lt_mul hpow).mp (by omega)
  have hk : k < 6 := (Nat.pow_lt_pow_iff_right (a := 10) (by decide)).mp (by omega)
  have hk' : 4 < k := (Nat.pow_lt_pow_iff_right (a := 10) (by decide)).mp (by omega)
  obtain rfl : k = 5 := by omega
  have hfirst : 8 ≤ a / 1000 := by omega
  have hdigits := inMemory_self ⟨a / 1000 - 8, by omega⟩ ⟨a / 100 % 10, by omega⟩
    ⟨a / 10 % 10, by omega⟩ ⟨a % 10, by omega⟩
  simp only [Nat.add_sub_of_le hfirst] at hdigits
  rw [← hn] at hdigits
  exact hdigits (by omega)

/-- The text of a negative number, of four characters or more, is a positive one in memory. -/
theorem intAt_negative {n : ℕ} (hlen : 3 ≤ (decimal n).length) (xs : List UInt8) :
    0 ≤ (intAt (0x2D :: decimal n ++ xs) 0).toInt := by
  obtain ⟨c1, c2, c3, rest, htext⟩ : ∃ c1 c2 c3 rest, decimal n = c1 :: c2 :: c3 :: rest := by
    match h : decimal n with
    | c1 :: c2 :: c3 :: rest => exact ⟨c1, c2, c3, rest, rfl⟩
    | [] | [_] | [_, _] => rw [h] at hlen; simp at hlen
  have hdigit := decimal_digit (n := n) (c := c3) (by rw [htext]; simp)
  have hc2 := c2.toNat_lt
  have hw2 : wordAt (0x2D :: decimal n ++ xs) (0 + 2) = c2.toNat + 256 * c3.toNat := by
    rw [htext]
    rfl
  rw [toInt_intAt_of_lt (by omega)]
  omega

theorem mem_selfReading {value : Int32} {n : ℕ} (hn : value.toInt = n)
    (h : n ∈ [809054264, 859387192, 942814265]) : value ∈ selfReading := by
  have heq : ∀ w : Int32, w.toInt = n → value = w :=
    fun w hw => Int32.toInt_inj.mp (hn.trans hw.symm)
  simp only [List.mem_cons, List.not_mem_nil, or_false] at h
  simp only [selfReading, List.mem_cons, List.not_mem_nil, or_false]
  rcases h with rfl | rfl | rfl
  · exact .inl (heq _ rfl)
  · exact .inr (.inl (heq _ rfl))
  · exact .inr (.inr (heq _ rfl))

/-- A text of four characters or more is the number in memory for three numbers only. -/
theorem intText_self {value : Int32} (hlen : 4 ≤ (intText value).length) (xs : List UInt8)
    (h : intAt (intText value ++ xs) 0 = value) : value ∈ selfReading := by
  unfold intText at hlen h
  split at hlen
  · rename_i hneg
    rw [if_pos hneg] at h
    rw [List.length_cons] at hlen
    have hpos := intAt_negative (n := value.toInt.natAbs) (by omega) xs
    rw [h] at hpos
    omega
  · rename_i hpos
    rw [if_neg hpos] at h
    have hthousand : 10 ^ 3 ≤ value.toInt.natAbs := by
      by_contra hlt
      have hshort := (decimal_length_le_iff (m := 3) (by decide)).mpr (Nat.not_le.mp hlt)
      omega
    obtain ⟨k, hlow, hhigh, htake⟩ := decimal_take hthousand
    have hsplit : decimal value.toInt.natAbs ++ xs =
        decimal (value.toInt.natAbs / 10 ^ k) ++ ((decimal value.toInt.natAbs).drop 4 ++ xs) := by
      rw [← htake, ← List.append_assoc, List.take_append_drop]
    rw [hsplit] at h
    have hmemory := intAt_decimal hlow hhigh ((decimal value.toInt.natAbs).drop 4 ++ xs)
    rw [h] at hmemory
    have hnat : value.toInt = value.toInt.natAbs := by omega
    exact mem_selfReading hnat (self_reading hlow hhigh rfl (by omega))

end TestCodes.Gagebu
