import Mathlib.Algebra.Group.Nat.Defs
import Mathlib.Data.Fintype.Card
import Mathlib.Data.List.Nodup

/-! A queue in which everyone draws the next number and the number served counts up behind
everyone who leaves. The two counters wrap around. -/
namespace TestCodes

/-- How someone stands in a queue: not at all, with a number, or served. -/
inductive Stand
  | away
  | waits (number : UInt32)
  | served
  deriving DecidableEq

/-- Who stands in the queue, in the order in which the numbers were drawn. -/
structure TicketLine {τ : Type*} (next serving : UInt32) (queue : List τ) (stand : τ → Stand) :
    Prop where
  nodup : queue.Nodup
  next_eq : next = serving + .ofNat queue.length
  inLine : ∀ i t, queue[i]? = some t → stand t = .waits (serving + .ofNat i) ∨
    i = 0 ∧ stand t = .served
  away : ∀ t, t ∉ queue → stand t = .away

namespace TicketLine
variable {τ : Type*} {next serving n : UInt32} {queue : List τ} {stand stand' : τ → Stand} {t u : τ}

theorem empty (hstand : ∀ t, stand t = .away) : TicketLine next next ([] : List τ) stand where
  nodup := List.nodup_nil
  next_eq := (UInt32.add_zero next).symm
  inLine := fun i t ht => by cases ht
  away := fun t _ => hstand t

theorem mem_iff (h : TicketLine next serving queue stand) : t ∈ queue ↔ stand t ≠ .away := by
  constructor
  · intro ht
    obtain ⟨i, hi⟩ := List.mem_iff_getElem?.mp ht
    rcases h.inLine i t hi with hwaits | ⟨-, hserved⟩
    · rw [hwaits]
      simp
    · rw [hserved]
      simp
  · intro hstand
    by_contra ht
    exact hstand (h.away t ht)

theorem first_of_served (h : TicketLine next serving queue stand) (ht : stand t = .served) :
    queue[0]? = some t := by
  have hmem : t ∈ queue := h.mem_iff.mpr (by rw [ht]; simp)
  obtain ⟨i, hi⟩ := List.mem_iff_getElem?.mp hmem
  rcases h.inLine i t hi with hwaits | ⟨rfl, -⟩
  · rw [ht] at hwaits
    cases hwaits
  · exact hi

theorem cons_of_served (h : TicketLine next serving queue stand) (ht : stand t = .served) :
    ∃ rest, queue = t :: rest := by
  have hfirst := h.first_of_served ht
  cases queue with
  | nil => cases hfirst
  | cons u rest => exact ⟨rest, by rw [Option.some.inj hfirst]⟩

theorem index_unique (h : TicketLine next serving queue stand) {i j : ℕ} (hi : queue[i]? = some t)
    (hj : queue[j]? = some t) : i = j :=
  (List.getElem?_inj (List.getElem?_eq_some_iff.mp hi).1 h.nodup).mp (hi.trans hj.symm)

theorem served_unique (h : TicketLine next serving queue stand) (ht : stand t = .served)
    (hu : stand u = .served) : t = u :=
  Option.some.inj ((h.first_of_served ht).symm.trans (h.first_of_served hu))

/-- The number served is that of the first in the queue, while there are not more in it than
there are numbers. -/
theorem first_iff [Fintype τ] (hcard : Fintype.card τ ≤ 2 ^ 32)
    (h : TicketLine next serving queue stand) (ht : stand t = .waits n) :
    serving = n ↔ queue[0]? = some t := by
  have hmem : t ∈ queue := h.mem_iff.mpr (by rw [ht]; simp)
  obtain ⟨i, hi⟩ := List.mem_iff_getElem?.mp hmem
  have hlt : i < 2 ^ 32 :=
    (List.getElem?_eq_some_iff.mp hi).1.trans_le (h.nodup.length_le_card.trans hcard)
  have hn : n = serving + .ofNat i := by
    rcases h.inLine i t hi with hwaits | ⟨-, hserved⟩
    · exact Stand.waits.inj (ht.symm.trans hwaits)
    · rw [ht] at hserved
      cases hserved
  have hzero : serving = n ↔ i = 0 := by
    have hs := serving.toNat_lt
    rw [hn, ← UInt32.toNat_inj, UInt32.toNat_add, UInt32.toNat_ofNat_of_lt' hlt]
    omega
  rw [hzero]
  constructor
  · rintro rfl
    exact hi
  · intro hfirst
    exact h.index_unique hi hfirst

theorem draw (h : TicketLine next serving queue stand) (ht : stand t = .away)
    (hself : stand' t = .waits next) (hothers : ∀ u, u ≠ t → stand' u = stand u) :
    TicketLine (next + 1) serving (queue ++ [t]) stand' := by
  have hnot : t ∉ queue := fun hmem => h.mem_iff.mp hmem ht
  refine ⟨?_, ?_, ?_, ?_⟩
  · exact List.nodup_append.mpr ⟨h.nodup, List.nodup_singleton t, by
      rintro u hu v hv rfl
      exact hnot (List.mem_singleton.mp hv ▸ hu)⟩
  · rw [h.next_eq, List.length_append, List.length_singleton, UInt32.ofNat_add, UInt32.add_assoc]
    rfl
  · intro i u hi
    rw [List.getElem?_append] at hi
    split at hi
    · have hu : u ≠ t := by
        rintro rfl
        exact hnot (List.mem_of_getElem? hi)
      rw [hothers u hu]
      exact h.inLine i u hi
    · rename_i hlen
      have hi' : i = queue.length := by
        have := (List.getElem?_eq_some_iff.mp hi).1
        rw [List.length_singleton] at this
        omega
      subst hi'
      rw [Nat.sub_self] at hi
      obtain rfl : t = u := Option.some.inj hi
      rw [hself, h.next_eq]
      exact .inl rfl
  · intro u hu
    rw [List.mem_append, List.mem_singleton, not_or] at hu
    rw [hothers u hu.2]
    exact h.away u hu.1

theorem serve (h : TicketLine next serving queue stand) (ht : queue[0]? = some t)
    (hself : stand' t = .served) (hothers : ∀ u, u ≠ t → stand' u = stand u) :
    TicketLine next serving queue stand' := by
  refine ⟨h.nodup, h.next_eq, ?_, ?_⟩
  · intro i u hi
    by_cases hu : u = t
    · subst hu
      exact .inr ⟨h.index_unique hi ht, hself⟩
    · rw [hothers u hu]
      exact h.inLine i u hi
  · intro u hu
    have hne : u ≠ t := by
      rintro rfl
      exact hu (List.mem_of_getElem? ht)
    rw [hothers u hne]
    exact h.away u hu

theorem leave [DecidableEq τ] (h : TicketLine next serving queue stand) (ht : stand t = .served)
    (hself : stand' t = .away) (hothers : ∀ u, u ≠ t → stand' u = stand u) :
    TicketLine next (serving + 1) (queue.erase t) stand' := by
  obtain ⟨rest, rfl⟩ := h.cons_of_served ht
  obtain ⟨hnot, hnodup⟩ := List.nodup_cons.mp h.nodup
  rw [List.erase_cons_head]
  have hshift (i : ℕ) : serving + 1 + .ofNat i = serving + .ofNat (i + 1) := by
    rw [UInt32.ofNat_add, UInt32.add_comm (.ofNat i), ← UInt32.add_assoc]
    rfl
  refine ⟨hnodup, ?_, ?_, ?_⟩
  · rw [h.next_eq, hshift]
    rfl
  · intro i u hi
    have hu : u ≠ t := by
      rintro rfl
      exact hnot (List.mem_of_getElem? hi)
    rw [hothers u hu, hshift]
    rcases h.inLine (i + 1) u hi with hwaits | ⟨hzero, -⟩
    · exact .inl hwaits
    · cases hzero
  · intro u hu
    by_cases hut : u = t
    · rw [hut, hself]
    · rw [hothers u hut]
      apply h.away
      rw [List.mem_cons, not_or]
      exact ⟨hut, hu⟩

end TicketLine
end TestCodes
