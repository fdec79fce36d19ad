import Mathlib.Data.List.Basic
import Mathlib.Algebra.Ring.Nat

/-! Bits packed into words: the word that bit `k` lies in is the one at `k / w`, and a
word written there in which one bit is new leaves every other bit as it is. -/
namespace TestCodes

variable {W : Type*} {bit : W → ℕ → Bool} {w : ℕ}

/-- Bit `k` of the words, each of which has the bits below `w`. -/
def packedBit (bit : W → ℕ → Bool) (w : ℕ) (words : List W) (k : ℕ) : Bool :=
  match words[k / w]? with
  | none => false
  | some x => bit x (k % w)

theorem packedBit_getElem {words : List W} {k : ℕ} {x : W} (h : words[k / w]? = some x) :
    packedBit bit w words k = bit x (k % w) := by
  rw [packedBit, h]

theorem packedBit_replicate {x : W} (hx : ∀ j, bit x j = false) (n k : ℕ) :
    packedBit bit w (List.replicate n x) k = false := by
  unfold packedBit
  split
  · rfl
  · rename_i y hy
    rw [(List.mem_replicate.mp (List.mem_of_getElem? hy)).2, hx]

theorem packedBit_set {words : List W} {k : ℕ} {x y : W} {v : Bool} (hw : 0 < w)
    (hx : words[k / w]? = some x)
    (hy : ∀ j < w, bit y j = if j = k % w then v else bit x j) (j : ℕ) :
    packedBit bit w (words.set (k / w) y) j = if j = k then v else packedBit bit w words j := by
  obtain ⟨hlt, -⟩ := List.getElem?_eq_some_iff.mp hx
  by_cases hword : j / w = k / w
  · have hj : j = k ↔ j % w = k % w := by
      constructor
      · intro h
        rw [h]
      · intro h
        rw [← Nat.div_add_mod j w, ← Nat.div_add_mod k w, hword, h]
    have hset : (words.set (k / w) y)[j / w]? = some y := by
      rw [hword, List.getElem?_set_self hlt]
    rw [packedBit_getElem hset, hy _ (Nat.mod_lt j hw), packedBit_getElem (hword ▸ hx)]
    exact if_congr hj.symm rfl rfl
  · have hj : j ≠ k := fun h => hword (by rw [h])
    rw [if_neg hj, packedBit, List.getElem?_set_ne (Ne.symm hword), packedBit]

end TestCodes
