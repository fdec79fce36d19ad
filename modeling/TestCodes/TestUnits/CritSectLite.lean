import TestCodes.Lib.Threads
import TestCodes.Lib.TicketLine

/-! `CCritSectLite`, a lock that is one flag, and `CCritSectLiteFair`, which serves the threads
in the order in which they drew a number. -/
namespace TestCodes.TestUnits

open Threads

namespace CCritSectLite

def lockFlag : UInt32 := 0x1

inductive Call
  | enter
  | tryEnter
  deriving DecidableEq

inductive Place
  | outside
  | entering
  | inside
  deriving DecidableEq

variable {τ : Type*}

/-- A `Try` that finds the flag set answers `FALSE` and stays outside. -/
def code (_ : τ) (call : Call) (lock : UInt32) : Place → UInt32 × Place
  | .outside =>
      match call with
      | .enter => (lock, .entering)
      | .tryEnter => if lock = 0 then (lockFlag, .inside) else (lock, .outside)
  | .entering => if lock = 0 then (lockFlag, .inside) else (lock, .entering)
  | .inside => (0, .outside)

def new : Threads τ UInt32 Place := ⟨0, fun _ => .outside⟩

/-- The flag is set while a thread is inside, and at most one is. -/
structure Guarded (c : Threads τ UInt32 Place) : Prop where
  free_iff : c.shared = 0 ↔ ∀ u, c.place u ≠ .inside
  unique : ∀ t u, c.place t = .inside → c.place u = .inside → t = u

theorem Guarded.outside {c : Threads τ UInt32 Place} (h : Guarded c) {t u : τ}
    (hu : c.place u = .inside) (htu : t ≠ u) : c.place t ≠ .inside :=
  fun ht => htu (h.unique t u ht hu)

theorem guarded_new : Guarded (new : Threads τ UInt32 Place) where
  free_iff := iff_of_true rfl fun _ h => by cases h
  unique := fun _ _ ht => by cases ht

theorem code_inside_iff (t : τ) (call : Call) (lock : UInt32) (l : Place) :
    (code t call lock l).2 = .inside ↔
      lock = 0 ∧ (l = .entering ∨ l = .outside ∧ call = .tryEnter) := by
  cases l with
  | outside =>
      cases call with
      | enter => simp [code]
      | tryEnter => simp only [code]; split <;> simp [*]
  | entering => simp only [code]; split <;> simp [*]
  | inside => simp [code]

theorem code_shared (t : τ) (call : Call) (lock : UInt32) (l : Place)
    (h : (code t call lock l).2 ≠ .inside) :
    (code t call lock l).1 = if l = .inside then 0 else lock := by
  cases l with
  | outside =>
      cases call with
      | enter => rfl
      | tryEnter =>
          simp only [code] at h ⊢
          split at h
          · exact absurd rfl h
          · rw [if_neg ‹_›]
            rfl
  | entering =>
      simp only [code] at h ⊢
      split at h
      · exact absurd rfl h
      · rw [if_neg ‹_›]
        rfl
  | inside => rfl

variable [DecidableEq τ] {c : Threads τ UInt32 Place}

theorem guarded_step (h : Guarded c) (e : τ × Call) : Guarded (step code c e) := by
  by_cases hin : (code e.1 e.2 c.shared (c.place e.1)).2 = .inside
  · obtain ⟨hfree, hplace⟩ := (code_inside_iff ..).mp hin
    have hnone := h.free_iff.mp hfree
    have hflag : (step code c e).shared = lockFlag := by
      rw [step_shared]
      rcases hplace with hplace | ⟨hplace, hcall⟩
      · simp only [code, hplace, if_pos hfree]
      · simp only [code, hplace, hcall, if_pos hfree]
    have honly : ∀ u, (step code c e).place u = .inside → u = e.1 := by
      intro u hu
      by_contra hne
      rw [step_place_other code c hne] at hu
      exact hnone u hu
    constructor
    · rw [hflag]
      refine iff_of_false (by decide) fun hall => hall e.1 ?_
      rw [step_place_self, hin]
    · intro t u ht hu
      rw [honly t ht, honly u hu]
  · have hother : ∀ u, (step code c e).place u = .inside →
        u ≠ e.1 ∧ c.place u = .inside := by
      intro u hu
      by_cases hne : u = e.1
      · rw [hne, step_place_self] at hu
        exact absurd hu hin
      · rw [step_place_other code c hne] at hu
        exact ⟨hne, hu⟩
    constructor
    · rw [step_shared, code_shared _ _ _ _ hin]
      split
      · rename_i hout
        refine iff_of_true rfl fun u hu => ?_
        obtain ⟨hne, hu⟩ := hother u hu
        exact hne (h.unique u e.1 hu hout)
      · rename_i hout
        rw [h.free_iff]
        constructor
        · intro hnone u hu
          exact hnone u (hother u hu).2
        · intro hnone u hu
          apply hnone u
          rw [step_place_other code c]
          · exact hu
          · rintro rfl
            exact hout hu
    · intro t u ht hu
      exact h.unique t u (hother t ht).2 (hother u hu).2

theorem guarded_of_reaches (hc : Reaches code new c) : Guarded c :=
  hc.invariant Guarded guarded_new fun _ e _ h => guarded_step h e

end CCritSectLite

namespace CCritSectLiteFair

inductive Place
  | outside
  | waiting (me : UInt32)
  | inside
  deriving DecidableEq

def Place.stand : Place → Stand
  | .outside => .away
  | .waiting me => .waits me
  | .inside => .served

/-- The two counters, the threads in the order in which they drew their numbers, and in that in
which they went in. -/
structure Counters (τ : Type*) where
  ticket : UInt32
  lock : UInt32
  drawn : List τ
  entered : List τ

variable {τ : Type*}

def code (t : τ) (_ : Unit) (s : Counters τ) : Place → Counters τ × Place
  | .outside =>
      -- `InterlockedIncrement` answers the new value.
      ({ s with ticket := s.ticket + 1, drawn := s.drawn ++ [t] }, .waiting (s.ticket + 1 - 1))
  | .waiting me =>
      if s.lock ≠ me then (s, .waiting me) else ({ s with entered := s.entered ++ [t] }, .inside)
  | .inside => ({ s with lock := s.lock + 1 }, .outside)

def new : Threads τ (Counters τ) Place := ⟨⟨0, 0, [], []⟩, fun _ => .outside⟩

/-- The queue in front of the lock, of which the first may be inside; the others before it have
left. -/
structure InOrder (c : Threads τ (Counters τ) Place) (left queue : List τ) : Prop where
  tickets : TicketLine c.shared.ticket c.shared.lock queue fun t => (c.place t).stand
  drawn : c.shared.drawn = left ++ queue
  entered : (∃ t, c.place t = .inside ∧ c.shared.entered = left ++ [t]) ∨
    (∀ t, c.place t ≠ .inside) ∧ c.shared.entered = left

theorem inOrder_new : InOrder (new : Threads τ (Counters τ) Place) [] [] where
  tickets := TicketLine.empty fun _ => rfl
  drawn := rfl
  entered := .inr ⟨fun _ => Place.noConfusion, rfl⟩

variable {c : Threads τ (Counters τ) Place} {left queue : List τ}

theorem stand_served_iff {l : Place} : l.stand = .served ↔ l = .inside := by
  cases l <;> simp [Place.stand]

theorem InOrder.unique (h : InOrder c left queue) {t u : τ} (ht : c.place t = .inside)
    (hu : c.place u = .inside) : t = u :=
  h.tickets.served_unique (stand_served_iff.mpr ht) (stand_served_iff.mpr hu)

variable [DecidableEq τ]

theorem stand_other (c : Threads τ (Counters τ) Place) (e : τ × Unit) (u : τ) (hu : u ≠ e.1) :
    ((step code c e).place u).stand = (c.place u).stand := by
  rw [step_place_other code c hu]

theorem InOrder.draw (h : InOrder c left queue) {e : τ × Unit} (he : c.place e.1 = .outside) :
    InOrder (step code c e) left (queue ++ [e.1]) := by
  have hself : ((step code c e).place e.1).stand = .waits c.shared.ticket := by
    rw [step_place_self, he]
    simp only [code, UInt32.add_sub_cancel]
    rfl
  have hshared : (step code c e).shared = { c.shared with
      ticket := c.shared.ticket + 1
      drawn := c.shared.drawn ++ [e.1] } := by
    rw [step_shared, he]
    rfl
  have hinside : ∀ u, (step code c e).place u = .inside ↔ c.place u = .inside := by
    intro u
    rw [← stand_served_iff, ← stand_served_iff]
    by_cases hu : u = e.1
    · rw [hu, hself, he]
      simp [Place.stand]
    · rw [stand_other c e u hu]
  refine ⟨?_, ?_, ?_⟩
  · rw [hshared]
    exact h.tickets.draw (by rw [he]; rfl) hself (stand_other c e)
  · rw [hshared, h.drawn, List.append_assoc]
  · rw [hshared]
    rcases h.entered with ⟨t, ht, hentered⟩ | ⟨hnone, hentered⟩
    · exact .inl ⟨t, (hinside t).mpr ht, hentered⟩
    · exact .inr ⟨fun t => (hinside t).not.mpr (hnone t), hentered⟩

theorem step_waiting {e : τ × Unit} {me : UInt32} (he : c.place e.1 = .waiting me)
    (hlock : c.shared.lock ≠ me) : step code c e = c := by
  have hcode : code e.1 e.2 c.shared (c.place e.1) = (c.shared, c.place e.1) := by
    rw [he]
    simp only [code, if_pos hlock]
  apply Threads.ext
  · rw [step_shared, hcode]
  · rw [step_place, hcode, Function.update_eq_self]

theorem InOrder.enter [Fintype τ] (hcard : Fintype.card τ ≤ 2 ^ 32) (h : InOrder c left queue)
    {e : τ × Unit} {me : UInt32} (he : c.place e.1 = .waiting me) (hlock : c.shared.lock = me) :
    InOrder (step code c e) left queue ∧ (step code c e).place e.1 = .inside := by
  have hcode : code e.1 e.2 c.shared (c.place e.1) =
      ({ c.shared with entered := c.shared.entered ++ [e.1] }, .inside) := by
    rw [he]
    simp only [code, if_neg (not_not.mpr hlock)]
  have hstand : (c.place e.1).stand = .waits me := by rw [he]; rfl
  have hfirst : queue[0]? = some e.1 := (h.tickets.first_iff hcard hstand).mp hlock
  have hself : (step code c e).place e.1 = .inside := by rw [step_place_self, hcode]
  have hnone : ∀ t, c.place t ≠ .inside := by
    intro t ht
    have ht' := h.tickets.first_of_served (stand_served_iff.mpr ht)
    obtain rfl : t = e.1 := Option.some.inj (ht'.symm.trans hfirst)
    rw [ht] at he
    cases he
  refine ⟨⟨?_, ?_, ?_⟩, hself⟩
  · rw [step_shared, hcode]
    exact h.tickets.serve hfirst (stand_served_iff.mpr hself) (stand_other c e)
  · rw [step_shared, hcode, h.drawn]
  · rcases h.entered with ⟨t, ht, -⟩ | ⟨-, hentered⟩
    · exact absurd ht (hnone t)
    · refine .inl ⟨e.1, hself, ?_⟩
      rw [step_shared, hcode, ← hentered]

theorem InOrder.leave (h : InOrder c left queue) {e : τ × Unit} (he : c.place e.1 = .inside) :
    InOrder (step code c e) (left ++ [e.1]) (queue.erase e.1) := by
  have hcode : code e.1 e.2 c.shared (c.place e.1) =
      ({ c.shared with lock := c.shared.lock + 1 }, .outside) := by
    rw [he]
    rfl
  have hself : (step code c e).place e.1 = .outside := by rw [step_place_self, hcode]
  have hserved := stand_served_iff.mpr he
  refine ⟨?_, ?_, ?_⟩
  · rw [step_shared, hcode]
    exact h.tickets.leave hserved (by rw [hself]; rfl) (stand_other c e)
  · rw [step_shared, hcode, h.drawn]
    obtain ⟨rest, rfl⟩ := h.tickets.cons_of_served hserved
    rw [List.erase_cons_head, List.append_assoc]
    rfl
  · rcases h.entered with ⟨t, ht, hentered⟩ | ⟨hnone, -⟩
    · obtain rfl : t = e.1 := h.unique ht he
      refine .inr ⟨?_, ?_⟩
      · intro u hu
        by_cases hue : u = e.1
        · rw [hue, hself] at hu
          cases hu
        · rw [step_place_other code c hue] at hu
          exact hue (h.unique hu he)
      · rw [step_shared, hcode, ← hentered]
    · exact absurd he (hnone e.1)

variable [Fintype τ]

theorem inOrder_of_reaches (hcard : Fintype.card τ ≤ 2 ^ 32) (hc : Reaches code new c) :
    ∃ left queue, InOrder c left queue := by
  apply hc.invariant (fun c => ∃ left queue, InOrder c left queue) ⟨[], [], inOrder_new⟩
  rintro c e - ⟨left, queue, h⟩
  cases he : c.place e.1 with
  | outside => exact ⟨left, queue ++ [e.1], h.draw he⟩
  | waiting me =>
      by_cases hlock : c.shared.lock = me
      · exact ⟨left, queue, (h.enter hcard he hlock).1⟩
      · rw [step_waiting he hlock]
        exact ⟨left, queue, h⟩
  | inside => exact ⟨left ++ [e.1], queue.erase e.1, h.leave he⟩

theorem InOrder.first_enters (hcard : Fintype.card τ ≤ 2 ^ 32) (h : InOrder c left queue)
    (hnone : ∀ t, c.place t ≠ .inside) {u : τ} (hu : c.place u ≠ .outside) :
    ∃ t, c.place t ≠ .outside ∧ (step code c (t, ())).place t = .inside := by
  have hmem : u ∈ queue := by
    rw [h.tickets.mem_iff]
    intro haway
    apply hu
    cases hplace : c.place u with
    | outside => rfl
    | waiting me | inside =>
        rw [hplace] at haway
        cases haway
  cases hqueue : queue with
  | nil =>
      rw [hqueue] at hmem
      cases hmem
  | cons t rest =>
      have hfirst : queue[0]? = some t := by rw [hqueue]; rfl
      have ht : (c.place t).stand ≠ .away :=
        h.tickets.mem_iff.mp (List.mem_of_getElem? hfirst)
      refine ⟨t, ?_⟩
      cases hplace : c.place t with
      | outside =>
          rw [hplace] at ht
          exact absurd rfl ht
      | waiting me =>
          have hlock := (h.tickets.first_iff hcard (by rw [hplace]; rfl)).mpr hfirst
          exact ⟨by simp, (h.enter (e := (t, ())) hcard hplace hlock).2⟩
      | inside => exact absurd hplace (hnone t)

/-- In every interleaving of at most 2^32 threads, through every overflow of the counters: one
thread at a time is inside, they go in in the order in which they drew their numbers, and while
nobody is inside one of those that wait goes in as soon as it looks. -/
theorem serves_in_order (hcard : Fintype.card τ ≤ 2 ^ 32) (hc : Reaches code new c) :
    (∀ t u, c.place t = .inside → c.place u = .inside → t = u) ∧
    c.shared.entered <+: c.shared.drawn ∧
    ((∀ t, c.place t ≠ .inside) → ∀ u, c.place u ≠ .outside →
      ∃ t, c.place t ≠ .outside ∧ (step code c (t, ())).place t = .inside) := by
  obtain ⟨left, queue, h⟩ := inOrder_of_reaches hcard hc
  refine ⟨fun t u => h.unique, ?_, fun hnone u => h.first_enters hcard hnone⟩
  rw [h.drawn]
  rcases h.entered with ⟨t, ht, hentered⟩ | ⟨-, hentered⟩
  · obtain ⟨rest, rfl⟩ := h.tickets.cons_of_served (stand_served_iff.mpr ht)
    rw [hentered, List.prefix_append_right_inj]
    exact ⟨rest, rfl⟩
  · rw [hentered]
    exact List.prefix_append _ _

/-- Of two threads that have drawn their numbers, one goes in as soon as it looks. -/
theorem serves_in_order_two :
    ∃ c : Threads Bool (Counters Bool) Place, Reaches code new c ∧
      c.place false = .waiting 0 ∧ c.place true = .waiting 1 ∧
      ∃ t, (step code c (t, ())).place t = .inside := by
  let c : Threads Bool (Counters Bool) Place := run code new [(false, ()), (true, ())]
  have hc : Reaches code new c := ⟨_, rfl⟩
  obtain ⟨t, -, ht⟩ := (serves_in_order (by decide) hc).2.2 (by decide) false (by decide)
  exact ⟨c, hc, by decide, by decide, t, ht⟩

end CCritSectLiteFair
end TestCodes.TestUnits
