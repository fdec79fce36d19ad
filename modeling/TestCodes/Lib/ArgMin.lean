import Mathlib.Data.List.MinMax

/-! Where `List.argmin` finds its element, and a search for it by a running minimum. -/
namespace TestCodes

variable {α β γ : Type*} [LinearOrder β] {f : α → β}

theorem argmin_split {l : List α} {best : α} (h : best ∈ l.argmin f) :
    ∃ pre post, l = pre ++ best :: post ∧ (∀ x ∈ pre, f best < f x) ∧ ∀ x ∈ post, f best ≤ f x := by
  induction l generalizing best with
  | nil => cases h
  | cons a l ih =>
      rw [List.argmin_cons] at h
      cases hl : l.argmin f with
      | none =>
          obtain rfl := List.argmin_eq_none.mp hl
          rw [hl] at h
          obtain rfl := Option.some.inj h
          exact ⟨[], [], rfl, nofun, nofun⟩
      | some c =>
          obtain ⟨pre, post, rfl, hpre, hpost⟩ := ih hl
          rw [hl] at h
          simp only at h
          split at h
          · rename_i hlt
            obtain rfl := Option.some.inj h
            exact ⟨a :: pre, post, rfl, List.forall_mem_cons.mpr ⟨hlt, hpre⟩, hpost⟩
          · rename_i hle
            obtain rfl := Option.some.inj h
            refine ⟨[], pre ++ c :: post, rfl, nofun, fun x hx => ?_⟩
            exact (not_lt.mp hle).trans (List.le_of_mem_argmin hx hl)

/-- The running minimum, given one more element. -/
def keepMin (f : α → β) (best : Option α) (x : α) : Option α :=
  List.argAux (fun b c => f b < f c) best x

theorem argmin_eq_foldl (l : List α) : l.argmin f = l.foldl (keepMin f) none := rfl

/-- A loop, each round of which gives some elements to the running minimum. -/
theorem foldl_keepMin {step : Option α → γ → Option α} {offered : γ → List α}
    (hstep : ∀ best c, step best c = (offered c).foldl (keepMin f) best) (l : List γ)
    (best : Option α) : l.foldl step best = (l.flatMap offered).foldl (keepMin f) best := by
  induction l generalizing best with
  | nil => rfl
  | cons c l ih => rw [List.foldl_cons, ih, hstep, List.flatMap_cons, List.foldl_append]

end TestCodes
