import TestCodes.Lib.Machine
import Mathlib.Data.List.Nodup

/-! A vector of slots that is made longer as far as needed, each slot filled once. -/
namespace TestCodes

abbrev Slots (F : Type*) := List (Option F)

namespace Slots
variable {F R : Type*}

def get (t : Slots F) (i : ℕ) : Option F := t[i]?.join

def put (t : Slots F) (i : ℕ) (f : F) : Slots F := t.set i (some f)

def grow (t : Slots F) (i : ℕ) : Slots F :=
  if t.length ≤ i then t ++ List.replicate (i + 1 - t.length) none else t

/-- Filling a slot; one that is filled is refused. -/
def register (t : Slots F) (i : ℕ) (f : F) : Option (Slots F) :=
  if ((t.grow i).get i).isNone then some ((t.grow i).put i f) else none

theorem lt_length_grow (t : Slots F) (i : ℕ) : i < (t.grow i).length := by
  unfold grow
  split
  · rw [List.length_append, List.length_replicate]
    omega
  · omega

theorem get_grow (t : Slots F) (i j : ℕ) : (t.grow i).get j = t.get j := by
  unfold grow
  split
  · by_cases hj : j < t.length
    · rw [get, List.getElem?_append_left hj, get]
    · rw [get, List.getElem?_append_right (Nat.le_of_not_lt hj), List.getElem?_replicate, get,
        List.getElem?_eq_none (Nat.le_of_not_lt hj)]
      split <;> rfl
  · rfl

theorem get_put (t : Slots F) {i : ℕ} (hi : i < t.length) (f : F) (j : ℕ) :
    (t.put i f).get j = if j = i then some f else t.get j := by
  by_cases hj : j = i
  · rw [if_pos hj, hj, get, put, List.getElem?_set_self hi]
    rfl
  · rw [if_neg hj, get, put, List.getElem?_set_ne (Ne.symm hj), get]

theorem register_empty {t : Slots F} {i : ℕ} (h : t.get i = none) (f : F) :
    ∃ t', t.register i f = some t' ∧ ∀ j, t'.get j = if j = i then some f else t.get j := by
  have hfree : ((t.grow i).get i).isNone := by rw [get_grow, h]; rfl
  refine ⟨_, if_pos hfree, fun j => ?_⟩
  rw [get_put _ (lt_length_grow t i), get_grow]

theorem registers_distinct {id : R → ℕ} {f : R → F} {regs : List R} {t : Slots F}
    (distinct : (regs.map id).Nodup) (free : ∀ r ∈ regs, t.get (id r) = none) :
    ∃ t', Machine.run (fun t r => register t (id r) (f r)) t regs = some t' ∧
      (∀ r ∈ regs, t'.get (id r) = some (f r)) ∧
      ∀ j, (∀ r ∈ regs, id r ≠ j) → t'.get j = t.get j := by
  induction regs generalizing t with
  | nil => exact ⟨t, rfl, nofun, fun _ _ => rfl⟩
  | cons r regs ih =>
      obtain ⟨hr, hdistinct⟩ := List.nodup_cons.mp distinct
      have hother : ∀ q ∈ regs, id q ≠ id r := by
        intro q hq heq
        exact hr (heq ▸ List.mem_map_of_mem hq)
      obtain ⟨t₁, hreg, hget⟩ := register_empty (free r List.mem_cons_self) (f r)
      obtain ⟨t', hrun, hfilled, hrest⟩ := ih (t := t₁) hdistinct fun q hq => by
        rw [hget, if_neg (hother q hq)]
        exact free q (List.mem_cons_of_mem r hq)
      refine ⟨t', ?_, ?_, ?_⟩
      · rw [Machine.run_cons, hreg]
        exact hrun
      · refine List.forall_mem_cons.mpr ⟨?_, hfilled⟩
        rw [hrest _ hother, hget, if_pos rfl]
      · intro j hj
        obtain ⟨hjr, hjs⟩ := List.forall_mem_cons.mp hj
        rw [hrest j hjs, hget, if_neg (Ne.symm hjr)]

end Slots
end TestCodes
