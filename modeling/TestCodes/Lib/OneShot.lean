import Mathlib.Data.List.Induction

/-! Grants that may be used once, read off a log: every use finds a grant that
no use has taken since. -/
namespace TestCodes.OneShot

variable {α : Type*} (grant use : α → Bool)

/-- Whether the last grant in the log is still to be used. -/
def armed (log : List α) : Bool :=
  log.foldl (fun held a => if grant a then true else if use a then false else held) false

def Guarded (log : List α) : Prop :=
  ∀ xs a ys, log = xs ++ a :: ys → use a = true → armed grant use xs = true

variable {grant use}

theorem armed_snoc (log : List α) (a : α) :
    armed grant use (log ++ [a]) =
      if grant a then true else if use a then false else armed grant use log := by
  rw [armed, List.foldl_append]
  rfl

theorem Guarded.nil : Guarded grant use [] := by
  intro xs a ys h
  simp at h

theorem Guarded.snoc {log : List α} {a : α} (h : Guarded grant use log)
    (ha : use a = true → armed grant use log = true) : Guarded grant use (log ++ [a]) := by
  intro xs b ys hlog hb
  cases ys using List.reverseRecOn with
  | nil =>
      obtain ⟨rfl, hab⟩ := List.append_inj' hlog rfl
      exact ha ((List.cons.inj hab).1 ▸ hb)
  | append_singleton ys y _ =>
      rw [← List.cons_append, ← List.append_assoc] at hlog
      exact h xs b ys (List.append_inj' hlog rfl).1 hb

theorem armed_of_no_grant {xs : List α} (h : ∀ a ∈ xs, grant a = false) :
    armed grant use xs = false := by
  induction xs using List.reverseRecOn with
  | nil => rfl
  | append_singleton xs a ih =>
      rw [armed_snoc, h a (List.mem_append_right _ (List.mem_singleton_self a)),
        ih fun b hb => h b (List.mem_append_left _ hb)]
      simp

theorem Guarded.none_before {xs ys : List α} (h : Guarded grant use (xs ++ ys))
    (hg : ∀ a ∈ xs, grant a = false) : ∀ a ∈ xs, use a = false := by
  intro a ha
  obtain ⟨before, after, rfl⟩ := List.append_of_mem ha
  by_contra hu
  have harmed := h before a (after ++ ys) (by simp) (by simpa using hu)
  rw [armed_of_no_grant fun b hb => hg b (List.mem_append_left _ hb)] at harmed
  cases harmed

/-- A stretch without a grant uses at most the one that stands before it. -/
theorem Guarded.countP_le {xs ys zs : List α} (h : Guarded grant use (xs ++ ys ++ zs))
    (hg : ∀ a ∈ ys, grant a = false) :
    ys.countP use ≤ if armed grant use xs then 1 else 0 := by
  induction ys generalizing xs with
  | nil => simp
  | cons a ys ih =>
      have ha := hg a List.mem_cons_self
      have hlog : Guarded grant use (xs ++ [a] ++ ys ++ zs) := by simpa using h
      have hrest := ih hlog fun b hb => hg b (List.mem_cons_of_mem _ hb)
      rw [armed_snoc, ha] at hrest
      by_cases hu : use a
      · have harmed := h xs a (ys ++ zs) (by simp) hu
        rw [harmed, List.countP_cons_of_pos hu]
        simpa [hu] using hrest
      · rw [List.countP_cons_of_neg hu]
        simpa [hu] using hrest

theorem Guarded.at_most_one {xs ys zs : List α} (h : Guarded grant use (xs ++ ys ++ zs))
    (hg : ∀ a ∈ ys, grant a = false) : ys.countP use ≤ 1 := by
  have hle := h.countP_le hg
  split at hle <;> omega

end TestCodes.OneShot
