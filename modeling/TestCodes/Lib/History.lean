import TestCodes.Lib.Threads

/-! Calls of many threads that answer as if they were made one after another. -/
namespace TestCodes.Threads
variable {τ S L ι κ A R : Type*}

/-- The calls with their answers, the last one first, take `a₀` to `a` when each is made at once. -/
def Sequential (spec : κ → A → A × R) (a₀ : A) : List (τ × κ × R) → A → Prop
  | [], a => a = a₀
  | (_, call, answer) :: earlier, a =>
      ∃ b, Sequential spec a₀ earlier b ∧ spec call b = (a, answer)

/-- If every step of the code is seen as one call made at once, or not at all, then so is every
interleaving. -/
theorem Reaches.sequential [DecidableEq τ] {code : Code τ ι S L} {c₀ c : Threads τ S L}
    (hc : Reaches code c₀ c) (spec : κ → A → A × R) (see : S → A)
    (history : S → List (τ × κ × R)) (hnew : history c₀.shared = [])
    (hstep : ∀ c e, Reaches code c₀ c →
      see (step code c e).shared = see c.shared ∧
        history (step code c e).shared = history c.shared ∨
      ∃ call, see (step code c e).shared = (spec call (see c.shared)).1 ∧
        history (step code c e).shared =
          (e.1, call, (spec call (see c.shared)).2) :: history c.shared) :
    Sequential spec (see c₀.shared) (history c.shared) (see c.shared) := by
  refine hc.invariant
    (fun c => Sequential spec (see c₀.shared) (history c.shared) (see c.shared)) ?_ ?_
  · rw [hnew]
    rfl
  · intro c e hc h
    rcases hstep c e hc with ⟨hsee, hhistory⟩ | ⟨call, hsee, hhistory⟩
    · rw [hsee, hhistory]
      exact h
    · rw [hsee, hhistory]
      exact ⟨see c.shared, h, rfl⟩

end TestCodes.Threads
