import Mathlib.Data.Nat.Digits.Lemmas

/-! Numbers written in decimal, in ASCII. -/
namespace TestCodes

def asciiDigit (d : ℕ) : UInt8 := .ofNat (48 + d)

def decimal (n : ℕ) : List UInt8 :=
  if n = 0 then [asciiDigit 0] else (Nat.digits 10 n).reverse.map asciiDigit

theorem decimal_of_lt {n : ℕ} (h : n < 10) : decimal n = [asciiDigit n] := by
  unfold decimal
  split
  · rename_i hn
    rw [hn]
  · rename_i hn
    rw [Nat.digits_of_lt 10 n hn h]
    rfl

theorem decimal_of_le {n : ℕ} (h : 10 ≤ n) :
    decimal n = decimal (n / 10) ++ [asciiDigit (n % 10)] := by
  have hdiv : n / 10 ≠ 0 := by omega
  rw [decimal, decimal, if_neg hdiv, if_neg (by omega), Nat.digits_def' (by decide) (by omega),
    List.reverse_cons, List.map_append]
  rfl

theorem decimal_digit {n : ℕ} {c : UInt8} (h : c ∈ decimal n) : 48 ≤ c.toNat ∧ c.toNat ≤ 57 := by
  have hascii : ∀ d < 10, 48 ≤ (asciiDigit d).toNat ∧ (asciiDigit d).toNat ≤ 57 := by decide
  unfold decimal at h
  split at h
  · rw [List.mem_singleton.mp h]
    exact hascii 0 (by decide)
  · obtain ⟨d, hd, rfl⟩ := List.mem_map.mp h
    exact hascii d (Nat.digits_lt_base (by decide) (List.mem_reverse.mp hd))

theorem decimal_length_pos (n : ℕ) : 0 < (decimal n).length := by
  rcases Nat.lt_or_ge n 10 with h | h
  · rw [decimal_of_lt h]
    exact Nat.zero_lt_one
  · rw [decimal_of_le h, List.length_append]
    exact Nat.succ_pos _

theorem decimal_length_le_iff {n m : ℕ} (hm : 0 < m) : (decimal n).length ≤ m ↔ n < 10 ^ m := by
  unfold decimal
  split
  · rename_i hn
    rw [hn]
    exact iff_of_true hm (Nat.pow_pos (by decide))
  · rw [List.length_map, List.length_reverse]
    exact Nat.digits_length_le_iff (by decide) n

/-- The first `m + 1` digits of a number that has as many are those of a quotient. -/
theorem decimal_take {n m : ℕ} (h : 10 ^ m ≤ n) : ∃ k, 10 ^ m ≤ n / 10 ^ k ∧
    n / 10 ^ k < 10 ^ (m + 1) ∧ (decimal n).take (m + 1) = decimal (n / 10 ^ k) := by
  induction n using Nat.strong_induction_on with
  | _ n ih =>
      rcases Nat.lt_or_ge n (10 ^ (m + 1)) with hlt | hge
      · refine ⟨0, by simpa using h, by simpa using hlt, ?_⟩
        rw [Nat.pow_zero, Nat.div_one]
        exact List.take_of_length_le ((decimal_length_le_iff (Nat.succ_pos m)).mpr hlt)
      · have hten : 10 ≤ n := (Nat.le_self_pow (Nat.succ_ne_zero m) 10).trans hge
        have hdiv : 10 ^ m ≤ n / 10 := by
          rw [Nat.le_div_iff_mul_le (by decide), ← Nat.pow_succ]
          exact hge
        obtain ⟨k, hlow, hhigh, htake⟩ := ih (n / 10) (by omega) hdiv
        rw [Nat.div_div_eq_div_mul, ← Nat.pow_succ'] at hlow hhigh htake
        refine ⟨k + 1, hlow, hhigh, ?_⟩
        have hlong : m + 1 ≤ (decimal (n / 10)).length := by
          by_contra hshort
          rcases Nat.eq_zero_or_pos m with rfl | hm
          · exact hshort (decimal_length_pos _)
          · exact absurd ((decimal_length_le_iff hm).mp (by omega)) (Nat.not_lt.mpr hdiv)
        rw [decimal_of_le hten, List.take_append_of_le_length hlong, htake]

end TestCodes
