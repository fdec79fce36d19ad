import Mathlib.Data.List.Basic

/-! Loops that read a range a few units at a time and write what the units stand for, until the
range is used up or an error is thrown. -/
namespace TestCodes

/-- The body of such a loop: what is left of the range, and the output with what was written. -/
structure Body (ε α β : Type) where
  step : List α → List β → Except ε (List α × List β)
  shorter {xs rest : List α} {out out' : List β} :
    xs ≠ [] → step xs out = .ok (rest, out') → rest.length < xs.length

namespace Body
variable {ε ε' α β γ : Type}

/-- What stands in the output when the loop is over, and what was thrown. -/
def loop (B : Body ε α β) (start : List α) (result : List β) : List β × Option ε :=
  if _hne : start = [] then (result, none)
  else match _h : B.step start result with
    | .ok (rest, result) => B.loop rest result
    | .error e => (result, some e)
termination_by start.length
decreasing_by exact B.shorter _hne _h

@[simp] theorem loop_nil (B : Body ε α β) (out : List β) : B.loop [] out = (out, none) := by
  rw [loop, dif_pos rfl]

theorem loop_of_ok {B : Body ε α β} {xs rest : List α} {out out' : List β} (hne : xs ≠ [])
    (h : B.step xs out = .ok (rest, out')) : B.loop xs out = B.loop rest out' := by
  rw [loop, dif_neg hne]
  split <;> rename_i h'
  · obtain ⟨rfl, rfl⟩ := Prod.mk.inj (Except.ok.inj (h.symm.trans h'))
    rfl
  · cases h.symm.trans h'

/-- Where one body returns another does the same, so where its loop returns. -/
theorem loop_agrees {B : Body ε α β} {B' : Body ε' α β}
    (h : ∀ {xs out r}, xs ≠ [] → B.step xs out = .ok r → B'.step xs out = .ok r)
    {xs : List α} {out ys : List β} (hloop : B.loop xs out = (ys, none)) :
    B'.loop xs out = (ys, none) := by
  fun_induction B.loop xs out with
  | case1 out =>
    cases hloop
    exact loop_nil B' _
  | case2 xs out hne rest out' hstep ih => rw [loop_of_ok hne (h hne hstep), ih hloop]
  | case3 xs out hne e hstep => cases hloop

variable {C : Type} {enc : C → List α} {enc' : C → List β}

/-- A body that reads one encoding and writes another. -/
structure Transcodes (B : Body ε α β) (enc : C → List α) (enc' : C → List β) : Prop where
  nonempty (c : C) : enc c ≠ []
  takes (c : C) (rest : List α) (out : List β) :
    B.step (enc c ++ rest) out = .ok (rest, out ++ enc' c)
  only {xs rest : List α} {out out' : List β} : xs ≠ [] → B.step xs out = .ok (rest, out') →
    ∃ c, xs = enc c ++ rest ∧ out' = out ++ enc' c

theorem Transcodes.loop_append {B : Body ε α β} (h : B.Transcodes enc enc') (cs : List C)
    (rest : List α) (out : List β) :
    B.loop (cs.flatMap enc ++ rest) out = B.loop rest (out ++ cs.flatMap enc') := by
  induction cs generalizing out with
  | nil => simp
  | cons c cs ih =>
    rw [List.flatMap_cons, List.append_assoc,
      loop_of_ok (by simp [h.nonempty c]) (h.takes c _ out), ih, List.flatMap_cons,
      List.append_assoc]

/-- The loop stops where the encoding does, with what is before that place written. -/
theorem Transcodes.loop_split {B : Body ε α β} (h : B.Transcodes enc enc') (xs : List α)
    (out : List β) :
    ∃ (cs : List C) (rest : List α), xs = cs.flatMap enc ++ rest ∧ (∀ c, ¬ enc c <+: rest) ∧
      (B.loop xs out).1 = out ++ cs.flatMap enc' ∧ ((B.loop xs out).2 = none ↔ rest = []) := by
  fun_induction B.loop xs out with
  | case1 out => exact ⟨[], [], rfl, by simpa using h.nonempty, by simp, by simp⟩
  | case2 xs out hne rest out' hstep ih =>
    obtain ⟨c, rfl, rfl⟩ := h.only hne hstep
    obtain ⟨cs, rest', rfl, hstuck, hout, hnone⟩ := ih
    exact ⟨c :: cs, rest', by simp, hstuck, by simp [hout], hnone⟩
  | case3 xs out hne e hstep =>
    refine ⟨[], xs, rfl, ?_, by simp, by simpa using hne⟩
    rintro c ⟨rest, rfl⟩
    cases (h.takes c rest out).symm.trans hstep

theorem Transcodes.loop_stuck {B : Body ε α β} (h : B.Transcodes enc enc') {rest : List α}
    (hstuck : ∀ c, ¬ enc c <+: rest) (out : List β) :
    (B.loop rest out).1 = out ∧ ((B.loop rest out).2 = none ↔ rest = []) := by
  obtain ⟨cs, rest', rfl, -, hout, hnone⟩ := h.loop_split rest out
  match cs with
  | [] => exact ⟨by simpa using hout, hnone⟩
  | c :: cs =>
    rw [List.flatMap_cons, List.append_assoc] at hstuck
    exact absurd (List.prefix_append _ _) (hstuck c)

theorem Transcodes.loop_eq_iff {B : Body ε α β} (h : B.Transcodes enc enc') {xs : List α}
    {out ys : List β} :
    B.loop xs out = (ys, none) ↔
      ∃ cs : List C, xs = cs.flatMap enc ∧ ys = out ++ cs.flatMap enc' := by
  constructor
  · intro hloop
    obtain ⟨cs, rest, rfl, -, hout, hnone⟩ := h.loop_split xs out
    rw [hloop] at hout hnone
    exact ⟨cs, by rw [hnone.mp rfl, List.append_nil], hout⟩
  · rintro ⟨cs, rfl, rfl⟩
    simpa using h.loop_append cs [] out

/-- Two loops over the same two encodings, one each way, are inverse to each other. -/
theorem Transcodes.loop_inverse {B : Body ε α β} {B' : Body ε' β α} (h : B.Transcodes enc enc')
    (h' : B'.Transcodes enc' enc) {xs : List α} {ys : List β} :
    B.loop xs [] = (ys, none) ↔ B'.loop ys [] = (xs, none) := by
  rw [h.loop_eq_iff, h'.loop_eq_iff]
  constructor
  · rintro ⟨cs, hxs, hys⟩
    exact ⟨cs, hys, hxs⟩
  · rintro ⟨cs, hys, hxs⟩
    exact ⟨cs, hxs, hys⟩

end Body

end TestCodes
