import TestCodes.Lib.Machine
import TestCodes.Lib.Pipe
import Mathlib.Data.Finset.Card

/-! `QueueSpinLocked`: a queue whose `pop` looks whether there is something before it takes
the lock. The locked bodies and the look are steps of their own, of any number of threads. -/
namespace TestCodes.TestUnitsNew

open Machine

/-- The container, the threads in `pop` that have found it not empty, and what was pushed and
popped so far. -/
structure QueueSpinLocked (τ T : Type*) where
  container : List T
  found : Finset τ
  pushed : List T
  popped : List (τ × T)

inductive QueueStep (τ T : Type*)
  | push (t : τ) (toPush : T)
  | empty (t : τ)
  | remove (t : τ)

namespace QueueSpinLocked
variable {τ T : Type*}

def new : QueueSpinLocked τ T := ⟨[], ∅, [], []⟩

/-- A thread that has found something goes on with the removal, any other starts a call. -/
def Enabled (q : QueueSpinLocked τ T) : QueueStep τ T → Prop
  | .push t _ => t ∉ q.found
  | .empty t => t ∉ q.found
  | .remove t => t ∈ q.found

instance Enabled.decidable [DecidableEq τ] (q : QueueSpinLocked τ T) : ∀ e, Decidable (q.Enabled e)
  | .push t _ => inferInstanceAs (Decidable (t ∉ q.found))
  | .empty t => inferInstanceAs (Decidable (t ∉ q.found))
  | .remove t => inferInstanceAs (Decidable (t ∈ q.found))

variable [DecidableEq τ]

/-- `front()` and `pop()` of an empty container are undefined. -/
def step (q : QueueSpinLocked τ T) : QueueStep τ T → Option (QueueSpinLocked τ T)
  | .push _ toPush => some { q with
      container := q.container ++ [toPush]
      pushed := q.pushed ++ [toPush] }
  | .empty t => some <| if q.container.isEmpty then q else { q with found := insert t q.found }
  | .remove t =>
      match q.container with
      | [] => none
      | toPop :: rest => some { q with
          container := rest
          found := q.found.erase t
          popped := q.popped ++ [(t, toPop)] }

/-- What was popped, and then what is in the container, is what was pushed, in order. -/
def Intact (q : QueueSpinLocked τ T) : Prop :=
  q.pushed = q.popped.map Prod.snd ++ q.container

/-- A thread that finds something finds more than the others will remove. -/
def Spare (q : QueueSpinLocked τ T) : QueueStep τ T → Prop
  | .empty _ => q.container ≠ [] → q.found.card < q.container.length
  | _ => True

instance Spare.decidable [DecidableEq T] (q : QueueSpinLocked τ T) : ∀ e, Decidable (q.Spare e)
  | .empty _ => inferInstanceAs (Decidable (q.container ≠ [] → q.found.card < q.container.length))
  | .push _ _ => inferInstanceAs (Decidable True)
  | .remove _ => inferInstanceAs (Decidable True)

/-- The queue as a pipe: what is pushed is promised, and what is popped is taken. -/
structure Refines (q : QueueSpinLocked τ T) (p : Pipe T) : Prop where
  pushed : q.pushed = p.promised
  popped : q.popped.map Prod.snd = p.taken
  container : q.container = p.pending

omit [DecidableEq τ] in
theorem Refines.intact {q : QueueSpinLocked τ T} {p : Pipe T} (h : q.Refines p) : q.Intact := by
  rw [Intact, h.pushed, h.popped, h.container, p.conserved]

/-- A locked body is an offer to the pipe or a delivery from it. -/
theorem Refines.step {q q' : QueueSpinLocked τ T} {p : Pipe T} (h : q.Refines p)
    {e : QueueStep τ T} (he : q.step e = some q') : ∃ p', q'.Refines p' := by
  cases e with
  | push t toPush =>
      obtain rfl := Option.some.inj he
      refine ⟨p.offer [toPush], ?_, h.popped, ?_⟩
      · exact congrArg (· ++ [toPush]) h.pushed
      · exact congrArg (· ++ [toPush]) h.container
  | empty t =>
      obtain rfl := Option.some.inj he
      split
      · exact ⟨p, h⟩
      · exact ⟨p, h.pushed, h.popped, h.container⟩
  | remove t =>
      have hpending := h.container
      cases hq : q.container with
      | nil => simp only [QueueSpinLocked.step, hq, reduceCtorEq] at he
      | cons toPop rest =>
          simp only [QueueSpinLocked.step, hq] at he
          obtain rfl := Option.some.inj he
          rw [hq] at hpending
          refine ⟨p.deliver 1, h.pushed, ?_, ?_⟩
          · change (q.popped ++ [(t, toPop)]).map Prod.snd = p.taken ++ p.pending.take 1
            rw [List.map_append, h.popped, ← hpending]
            rfl
          · change rest = p.pending.drop 1
            rw [← hpending]
            rfl

/-- There is an element for each thread that has found one. -/
structure Covered (q : QueueSpinLocked τ T) : Prop where
  refines : ∃ p, q.Refines p
  enough : q.found.card ≤ q.container.length

omit [DecidableEq τ] in
theorem covered_new : Covered (new : QueueSpinLocked τ T) :=
  ⟨⟨.empty, rfl, rfl, rfl⟩, Nat.le_refl 0⟩

theorem step_enough {q : QueueSpinLocked τ T} (h : q.found.card ≤ q.container.length)
    {e : QueueStep τ T} (he : q.Enabled e) (hspare : q.Spare e) :
    ∃ q', q.step e = some q' ∧ q'.found.card ≤ q'.container.length := by
  cases e with
  | push t toPush =>
      refine ⟨_, rfl, ?_⟩
      rw [List.length_append]
      exact h.trans (Nat.le_add_right _ _)
  | empty t =>
      refine ⟨_, rfl, ?_⟩
      split
      · exact h
      · rename_i hne
        rw [List.isEmpty_iff] at hne
        exact (Finset.card_insert_le t q.found).trans (hspare hne)
  | remove t =>
      have hpos : 0 < q.found.card := Finset.card_pos.mpr ⟨t, he⟩
      cases hq : q.container with
      | nil =>
          rw [hq] at h
          exact absurd (hpos.trans_le h) (Nat.lt_irrefl 0)
      | cons toPop rest =>
          rw [hq] at h
          simp only [step, hq]
          refine ⟨_, rfl, ?_⟩
          rw [Finset.card_erase_of_mem he]
          exact Nat.sub_le_of_le_add h

theorem step_covered {q : QueueSpinLocked τ T} (h : q.Covered) {e : QueueStep τ T}
    (he : q.Enabled e) (hspare : q.Spare e) : ∃ q', q.step e = some q' ∧ q'.Covered := by
  obtain ⟨p, hp⟩ := h.refines
  obtain ⟨q', hstep, henough⟩ := step_enough h.enough he hspare
  exact ⟨q', hstep, hp.step hstep, henough⟩

/-- When more threads have found something than there is, their removals come to an empty
container. -/
theorem removals_run_out {q : QueueSpinLocked τ T} (h : q.container.length < q.found.card) :
    ∃ threads : List τ, Along step Enabled q (threads.map .remove) ∧
      run step q (threads.map .remove) = none := by
  induction hq : q.container generalizing q with
  | nil =>
      have hpos : 0 < q.found.card := (Nat.zero_le _).trans_lt h
      obtain ⟨t, ht⟩ := Finset.card_pos.mp hpos
      refine ⟨[t], ⟨ht, ?_⟩, ?_⟩
      · simp only [step, hq]
      · simp only [List.map_cons, run_cons, step, hq, Option.bind_none]
  | cons toPop rest ih =>
      have hpos : 0 < q.found.card := (Nat.zero_le _).trans_lt h
      obtain ⟨t, ht⟩ := Finset.card_pos.mp hpos
      rw [hq] at h
      obtain ⟨threads, halong, hrun⟩ := ih (q := { q with
        container := rest
        found := q.found.erase t
        popped := q.popped ++ [(t, toPop)] }) (by
          change rest.length < (q.found.erase t).card
          rw [Finset.card_erase_of_mem ht]
          exact Nat.lt_sub_of_add_lt h) rfl
      refine ⟨t :: threads, ⟨ht, ?_⟩, ?_⟩
      · simp only [step, hq]
        exact halong
      · simp only [List.map_cons, run_cons, step, hq, Option.bind_some]
        exact hrun

/-- A look that is not covered can be followed by a removal from the empty container. -/
theorem uncovered_look_breaks {q : QueueSpinLocked τ T} {t : τ} (ht : t ∉ q.found)
    (h : ¬ q.Spare (.empty t)) : ∃ threads : List τ,
      Along step Enabled q (.empty t :: threads.map .remove) ∧
        run step q (.empty t :: threads.map .remove) = none := by
  obtain ⟨hne, hfew⟩ := Classical.not_imp.mp h
  have hlook : q.step (.empty t) = some { q with found := insert t q.found } := by
    simp [step, hne]
  obtain ⟨threads, halong, hrun⟩ := removals_run_out (q := { q with found := insert t q.found }) (by
    change q.container.length < (insert t q.found).card
    rw [Finset.card_insert_of_notMem ht]
    omega)
  refine ⟨threads, ⟨ht, ?_⟩, ?_⟩
  · rw [hlook]
    exact halong
  · rw [run_cons, hlook, Option.bind_some]
    exact hrun

end QueueSpinLocked

open QueueSpinLocked

/-- In every interleaving in which a thread finds something only while there is more than the
others will remove, no removal is from an empty container, and elements are popped once and
in order. -/
theorem pops_in_order {τ T : Type*} [DecidableEq τ] {steps : List (QueueStep τ T)}
    (h : Along step (fun q e => q.Enabled e ∧ q.Spare e) new steps) :
    Throughout step Intact new steps := by
  have hcovered : Throughout step Covered new steps :=
    Throughout.of_along (fun q e hq he => step_covered hq he.1 he.2) covered_new h
  apply hcovered.mono
  intro q hq
  obtain ⟨p, hp⟩ := hq.refines
  exact hp.intact

def twoElements : List (QueueStep ℕ ℕ) :=
  [.push 0 1, .push 1 2, .empty 0, .empty 1, .remove 1, .remove 0, .empty 0]

theorem pops_in_order_twoElements :
    Along step (fun q e => q.Enabled e ∧ q.Spare e) new twoElements ∧
      Throughout step Intact new twoElements :=
  ⟨by decide, pops_in_order (by decide)⟩

/-- Two threads find the one element, and the second removal is from an empty container. -/
theorem second_pop_from_empty :
    let steps : List (QueueStep ℕ ℕ) := [.push 0 1, .empty 0, .empty 1, .remove 0, .remove 1]
    Along step Enabled new steps ∧ run step new steps = none := by
  exact ⟨by decide, rfl⟩

end TestCodes.TestUnitsNew
