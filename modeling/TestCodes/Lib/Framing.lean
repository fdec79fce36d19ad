import Mathlib.Data.List.Basic

/-! Framing of a stream: frames that announce their own size in a header of
fixed length. What a prefix of the stream already settles, more of the stream
does not change, so cutting the stream anywhere cuts no frame. -/
namespace TestCodes

/-- `size` reads a complete header; `none` is a header that starts no frame. -/
structure Framing (α : Type*) where
  header : ℕ
  header_pos : 0 < header
  size : List α → Option ℕ

namespace Framing
variable {α : Type*} (F : Framing α)

/-- The size announced at the front of what has arrived. -/
def announced (xs : List α) : Option ℕ :=
  if F.header ≤ xs.length then F.size (xs.take F.header) else none

/-- The frame at the front and what follows it, once it is complete. -/
def next (xs : List α) : Option (List α × List α) :=
  (F.announced xs).bind fun n => if n ≤ xs.length then some (xs.take n, xs.drop n) else none

variable {F}

theorem header_le_of_announced {xs : List α} {n : ℕ} (h : F.announced xs = some n) :
    F.header ≤ xs.length := by
  unfold announced at h
  split at h
  · assumption
  · cases h

theorem announced_append {xs : List α} {n : ℕ} (h : F.announced xs = some n) (ys : List α) :
    F.announced (xs ++ ys) = some n := by
  have hl := header_le_of_announced h
  have hl' : F.header ≤ (xs ++ ys).length := by
    rw [List.length_append]
    omega
  rw [announced, if_pos hl', List.take_append_of_le_length hl]
  rwa [announced, if_pos hl] at h

theorem next_eq_some_iff {xs f rest : List α} :
    F.next xs = some (f, rest) ↔ F.announced xs = some f.length ∧ xs = f ++ rest := by
  constructor
  · intro h
    obtain ⟨n, hn, hif⟩ := Option.bind_eq_some_iff.mp h
    split at hif
    · rename_i hle
      obtain ⟨rfl, rfl⟩ := Prod.mk.inj (Option.some.inj hif)
      rw [List.length_take, Nat.min_eq_left hle, List.take_append_drop]
      exact ⟨hn, rfl⟩
    · cases hif
  · rintro ⟨hn, rfl⟩
    simp [next, hn]

theorem next_append {xs f rest : List α} (h : F.next xs = some (f, rest)) (ys : List α) :
    F.next (xs ++ ys) = some (f, rest ++ ys) := by
  obtain ⟨hn, rfl⟩ := next_eq_some_iff.mp h
  exact next_eq_some_iff.mpr ⟨announced_append hn ys, List.append_assoc _ _ _⟩

theorem next_eq_none_of_lt {xs : List α} {n : ℕ} (h : F.announced xs = some n)
    (hlt : xs.length < n) : F.next xs = none := by
  simp [next, h, Nat.not_le.mpr hlt]

theorem next_eq_none_of_announced {xs : List α} (h : F.announced xs = none) :
    F.next xs = none := by
  simp [next, h]

/-- A complete frame with nothing after it. -/
def IsFrame (F : Framing α) (q : List α) : Prop := F.announced q = some q.length

theorem IsFrame.next {q : List α} (h : F.IsFrame q) (ys : List α) :
    F.next (q ++ ys) = some (q, ys) :=
  next_eq_some_iff.mpr ⟨announced_append h ys, rfl⟩

/-- The positions at which a frame starts: each is reached from the one before
it by the size announced there, once that frame is complete. -/
inductive Boundary (F : Framing α) (xs : List α) : ℕ → Prop
  | start : Boundary F xs 0
  | next {i n : ℕ} : Boundary F xs i → F.announced (xs.drop i) = some n →
      i + n ≤ xs.length → Boundary F xs (i + n)

theorem Boundary.step {xs ys us f rest : List α} {i : ℕ} (h : Boundary F xs i)
    (hi : xs.drop i = us ++ ys) (hn : F.next us = some (f, rest)) :
    Boundary F xs (i + f.length) ∧ xs.drop (i + f.length) = rest ++ ys ∧
      F.announced (xs.drop i) = some f.length ∧ i + f.length ≤ xs.length := by
  obtain ⟨ha, rfl⟩ := next_eq_some_iff.mp hn
  have hann : F.announced (xs.drop i) = some f.length := by
    rw [hi]
    exact announced_append ha ys
  have hlen := congrArg List.length hi
  simp only [List.length_drop, List.length_append] at hlen
  have hl := header_le_of_announced ha
  have hpos := F.header_pos
  rw [List.length_append] at hl
  have hle : i + f.length ≤ xs.length := by omega
  refine ⟨.next h hann hle, ?_, hann, hle⟩
  rw [← List.drop_drop, hi, List.append_assoc, List.drop_left]

/-- A chain of complete frames from one stream to what is left of it. -/
inductive Frames (F : Framing α) : List α → List (List α) → List α → Prop
  | nil (xs : List α) : Frames F xs [] xs
  | cons {xs f rest zs : List α} {fs : List (List α)} : F.next xs = some (f, rest) →
      Frames F rest fs zs → Frames F xs (f :: fs) zs

theorem Frames.snoc {xs ys f rest : List α} {fs : List (List α)} (h : Frames F xs fs ys)
    (hn : F.next ys = some (f, rest)) : Frames F xs (fs ++ [f]) rest := by
  induction h with
  | nil xs => exact .cons hn (.nil _)
  | cons hf _ ih => exact .cons hf (ih hn)

theorem Frames.next_ne_none {xs zs f rest : List α} {fs : List (List α)}
    (h : Frames F xs fs zs) (hz : F.next zs = some (f, rest)) : F.next xs ≠ none := by
  cases h with
  | nil =>
      rw [hz]
      exact Option.some_ne_none _
  | cons hn _ =>
      rw [hn]
      exact Option.some_ne_none _

theorem frames_flatten {fs : List (List α)} (h : ∀ f ∈ fs, F.IsFrame f) (zs : List α) :
    Frames F (fs.flatten ++ zs) fs zs := by
  induction fs with
  | nil => exact .nil zs
  | cons f fs ih =>
      rw [List.flatten_cons, List.append_assoc]
      exact .cons ((h f List.mem_cons_self).next _)
        (ih fun g hg => h g (List.mem_cons_of_mem f hg))

theorem Boundary.frames {xs : List α} {i : ℕ} (h : Boundary F xs i) :
    ∃ fs, Frames F xs fs (xs.drop i) := by
  induction h with
  | start => exact ⟨[], .nil _⟩
  | @next i n _ ha hle ih =>
      obtain ⟨fs, hfs⟩ := ih
      have hlen : n ≤ (xs.drop i).length := by
        rw [List.length_drop]
        omega
      refine ⟨fs ++ [(xs.drop i).take n], hfs.snoc (next_eq_some_iff.mpr ⟨?_, ?_⟩)⟩
      · rw [List.length_take, Nat.min_eq_left hlen, ha]
      · rw [← List.drop_drop, List.take_append_drop]

end Framing
end TestCodes
