import TestCodes.TestUnits.CritSectLite

/-! `CSingleton`, whose one instance the first caller makes under a `CCritSectLite`. The others see
its pointer without the lock, as soon as the constructor of the base has stored it. -/
namespace TestCodes.TestUnits

open Threads

namespace CSingleton

/-- The static members; how many instances there have been, numbered from 0, and which of them
are constructed and destroyed; and how often `Destroy` is scheduled. -/
structure Statics where
  instance_ : Option ℕ
  cs : UInt32
  made : ℕ
  finished : List ℕ
  scheduled : ℕ
  destroyed : List ℕ

inductive Place
  | outside
  | returned (ptr : Option ℕ)
  | entering
  | checking
  | creating
  | constructing (ptr : ℕ)
  | building (ptr : ℕ)
  | built (ptr : ℕ)
  | scheduling
  | leaving
  | reading
  deriving DecidableEq

variable {τ : Type*}

/-- `GetInstance`, again and again. -/
def code (_ : τ) (_ : Unit) (s : Statics) : Place → Statics × Place
  | .outside | .returned _ => (s, if s.instance_ = none then .entering else .reading)
  | .entering =>
      if s.cs = 0 then ({ s with cs := CCritSectLite.lockFlag }, .checking) else (s, .entering)
  | .checking => (s, if s.instance_ = none then .creating else .leaving)
  -- `new T()`: the memory, the constructor of the base, that of `T`.
  | .creating => ({ s with made := s.made + 1 }, .constructing s.made)
  | .constructing ptr => ({ s with instance_ := some ptr }, .building ptr)
  | .building ptr => ({ s with finished := s.finished ++ [ptr] }, .built ptr)
  | .built ptr => ({ s with instance_ := some ptr }, .scheduling)
  | .scheduling => ({ s with scheduled := s.scheduled + 1 }, .leaving)
  | .leaving => ({ s with cs := 0 }, .reading)
  | .reading => (s, .returned s.instance_)

def new : Threads τ Statics Place := ⟨⟨none, 0, 0, [], 0, []⟩, fun _ => .outside⟩

def destroy (s : Statics) : Statics :=
  match s.instance_ with
  | some ptr => { s with instance_ := none, cs := 0, destroyed := s.destroyed ++ [ptr] }
  | none => s

/-- What has been scheduled runs when the program ends. -/
def exit (s : Statics) : Statics := destroy^[s.scheduled] s

section CriticalSection

def Place.atCs : Place → CCritSectLite.Place
  | .outside | .returned _ | .reading => .outside
  | .entering => .entering
  | .checking | .creating | .constructing _ | .building _ | .built _ | .scheduling | .leaving =>
      .inside

theorem code_simulates (t : τ) (call : Unit) (s : Statics) (l : Place) :
    (code t call s l).1.cs = s.cs ∧ (code t call s l).2.atCs = l.atCs ∨
      ∃ call', CCritSectLite.code t call' s.cs l.atCs =
        ((code t call s l).1.cs, (code t call s l).2.atCs) := by
  cases l with
  | outside | returned =>
      by_cases hnull : s.instance_ = none
      · refine .inr ⟨.enter, ?_⟩
        simp only [code, if_pos hnull]
        rfl
      · left
        simp only [code, if_neg hnull]
        exact ⟨trivial, rfl⟩
  | entering =>
      refine .inr ⟨.enter, ?_⟩
      by_cases hfree : s.cs = 0
      · simp only [code, CCritSectLite.code, Place.atCs, if_pos hfree]
      · simp only [code, CCritSectLite.code, Place.atCs, if_neg hfree]
  | checking =>
      refine .inl ⟨rfl, ?_⟩
      simp only [code, apply_ite Place.atCs]
      exact ite_self _
  | creating | constructing | building | built | scheduling | reading => exact .inl ⟨rfl, rfl⟩
  | leaving => exact .inr ⟨.enter, rfl⟩

variable [DecidableEq τ]

/-- One thread at a time is between `Enter` and `Leave`. -/
theorem guarded_of_reaches {c : Threads τ Statics Place} (hc : Reaches code new c) :
    CCritSectLite.Guarded (view Statics.cs Place.atCs c) :=
  CCritSectLite.guarded_of_reaches (hc.simulates code_simulates)

end CriticalSection

/-- How far the making of the instance has come. -/
def Statics.Are (s : Statics) (ptr : Option ℕ) (made : ℕ) (finished : List ℕ)
    (scheduled : ℕ) : Prop :=
  s.instance_ = ptr ∧ s.made = made ∧ s.finished = finished ∧ s.scheduled = scheduled ∧
    s.destroyed = []

/-- What the place of a thread says about the instance. -/
def Place.Sees (s : Statics) : Place → Prop
  | .outside | .entering | .checking => True
  | .returned ptr => ptr = some 0 ∧ s.instance_ = some 0
  | .reading => s.instance_ = some 0
  | .creating => s.Are none 0 [] 0
  | .constructing ptr => ptr = 0 ∧ s.Are none 1 [] 0
  | .building ptr => ptr = 0 ∧ s.Are (some 0) 1 [] 0
  | .built ptr => ptr = 0 ∧ s.Are (some 0) 1 [0] 0
  | .scheduling => s.Are (some 0) 1 [0] 0
  | .leaving => s.Are (some 0) 1 [0] 1

def Place.Makes : Place → Prop
  | .creating | .constructing _ | .building _ | .built _ | .scheduling => True
  | _ => False

/-- One thread makes the instance, or it is not begun, or complete. -/
structure Once (c : Threads τ Statics Place) : Prop where
  sees : ∀ t, (c.place t).Sees c.shared
  rests : (∀ t, ¬ (c.place t).Makes) →
    c.shared.Are none 0 [] 0 ∨ c.shared.Are (some 0) 1 [0] 1

theorem once_new : Once (new : Threads τ Statics Place) where
  sees _ := trivial
  rests _ := .inl ⟨rfl, rfl, rfl, rfl, rfl⟩

theorem Place.Makes.inside {l : Place} (h : l.Makes) : l.atCs = .inside := by
  cases l with
  | creating | constructing | building | built | scheduling => rfl
  | outside | returned | entering | checking | leaving | reading => exact h.elim

/-- A thread that is not at the lock sees the pointer at most, and that stays. -/
theorem Place.Sees.outside {s s' : Statics} {l : Place} (h : l.Sees s) (hl : l.atCs ≠ .inside)
    (hs : s.instance_ = some 0 → s'.instance_ = some 0) : l.Sees s' := by
  cases l with
  | outside | entering => trivial
  | returned ptr => exact ⟨h.1, hs h.2⟩
  | reading => exact hs h
  | checking | creating | constructing | building | built | scheduling | leaving =>
      exact absurd rfl hl

namespace Once
variable {c : Threads τ Statics Place}

theorem stage (h : Once c) :
    c.shared.instance_ = none ∧ c.shared.made ≤ 1 ∨
    c.shared.instance_ = some 0 ∧ c.shared.made = 1 ∧
      (c.shared.finished = [0] ∨ ∃ t, c.place t = .building 0) := by
  by_cases hmakes : ∃ t, (c.place t).Makes
  · obtain ⟨t, ht⟩ := hmakes
    have hsees := h.sees t
    cases hplace : c.place t with
    | creating =>
        rw [hplace] at hsees
        exact .inl ⟨hsees.1, by rw [hsees.2.1]; exact Nat.zero_le 1⟩
    | constructing ptr =>
        rw [hplace] at hsees
        exact .inl ⟨hsees.2.1, by rw [hsees.2.2.1]⟩
    | building ptr =>
        rw [hplace] at hsees
        obtain ⟨rfl, hptr, hmade, -⟩ := hsees
        exact .inr ⟨hptr, hmade, .inr ⟨t, hplace⟩⟩
    | built ptr =>
        rw [hplace] at hsees
        obtain ⟨-, hptr, hmade, hfinished, -⟩ := hsees
        exact .inr ⟨hptr, hmade, .inl hfinished⟩
    | scheduling =>
        rw [hplace] at hsees
        obtain ⟨hptr, hmade, hfinished, -⟩ := hsees
        exact .inr ⟨hptr, hmade, .inl hfinished⟩
    | outside | returned | entering | checking | leaving | reading =>
        rw [hplace] at ht
        exact ht.elim
  · rcases h.rests (not_exists.mp hmakes) with ⟨hnull, hmade, -⟩ | ⟨hptr, hmade, hfinished, -⟩
    · exact .inl ⟨hnull, by rw [hmade]; exact Nat.zero_le 1⟩
    · exact .inr ⟨hptr, hmade, .inl hfinished⟩

theorem pointer (h : Once c) : c.shared.instance_ = none ∨ c.shared.instance_ = some 0 :=
  h.stage.imp And.left And.left

variable [DecidableEq τ]

theorem of_step {e : τ × Unit} {s : Statics} {l : Place}
    (hcode : code e.1 e.2 c.shared (c.place e.1) = (s, l)) (hsees : l.Sees s)
    (hothers : ∀ t, t ≠ e.1 → (c.place t).Sees s)
    (hrests : ¬ l.Makes → (∀ t, t ≠ e.1 → ¬ (c.place t).Makes) →
      s.Are none 0 [] 0 ∨ s.Are (some 0) 1 [0] 1) : Once (step code c e) := by
  have hshared : (step code c e).shared = s := by rw [step_shared, hcode]
  have hself : (step code c e).place e.1 = l := by rw [step_place_self, hcode]
  refine ⟨?_, ?_⟩
  · rw [hshared]
    refine forall_step (P := fun _ (l : Place) => l.Sees s) ?_ hothers
    rw [hcode]
    exact hsees
  · intro hnone
    rw [hshared]
    apply hrests
    · rw [← hself]
      exact hnone e.1
    · intro t ht
      rw [← step_place_other code c ht]
      exact hnone t

theorem quiet (h : Once c) {e : τ × Unit} {l₀ : Place} (hplace : c.place e.1 = l₀)
    (hmakes : ¬ l₀.Makes) {cs : UInt32} {l : Place}
    (hcode : code e.1 e.2 c.shared l₀ = ({ c.shared with cs }, l)) (hsees : l.Sees c.shared) :
    Once (step code c e) := by
  subst hplace
  have hsame : ∀ l : Place, l.Sees c.shared → l.Sees { c.shared with cs } := by
    intro l hl
    cases l <;> exact hl
  refine of_step hcode (hsame l hsees) (fun t _ => hsame _ (h.sees t)) fun _ hnone => ?_
  refine h.rests fun t => ?_
  by_cases ht : t = e.1
  · rw [ht]
    exact hmakes
  · exact hnone t ht

theorem makes (h : Once c) {e : τ × Unit} {l₀ : Place} (hplace : c.place e.1 = l₀)
    (hmakes : l₀.Makes) (hguarded : CCritSectLite.Guarded (view Statics.cs Place.atCs c))
    {s : Statics} {l : Place} (hcode : code e.1 e.2 c.shared l₀ = (s, l))
    (hs : c.shared.instance_ = some 0 → s.instance_ = some 0) (hsees : l.Sees s)
    (hrests : l.Makes ∨ s.Are (some 0) 1 [0] 1) : Once (step code c e) := by
  subst hplace
  refine of_step hcode hsees ?_ fun hnot _ => .inr (hrests.resolve_left hnot)
  intro t hte
  exact (h.sees t).outside (hguarded.outside hmakes.inside hte) hs

theorem looks (h : Once c) {e : τ × Unit} {l₀ : Place} (hplace : c.place e.1 = l₀)
    (hmakes : ¬ l₀.Makes) (hcode : code e.1 e.2 c.shared l₀ =
      (c.shared, if c.shared.instance_ = none then .entering else .reading)) :
    Once (step code c e) := by
  by_cases hnull : c.shared.instance_ = none
  · rw [if_pos hnull] at hcode
    exact h.quiet hplace hmakes hcode trivial
  · rw [if_neg hnull] at hcode
    exact h.quiet hplace hmakes hcode (h.pointer.resolve_left hnull)

theorem checks (h : Once c) {e : τ × Unit} (hplace : c.place e.1 = .checking)
    (hguarded : CCritSectLite.Guarded (view Statics.cs Place.atCs c)) :
    Once (step code c e) := by
  have hnone : ∀ t, ¬ (c.place t).Makes := by
    intro t ht
    obtain rfl : t = e.1 := by
      refine hguarded.unique t e.1 ht.inside ?_
      rw [view_place, hplace]
      rfl
    rw [hplace] at ht
    exact ht
  rcases h.rests hnone with hs | hs
  · have hcode : code e.1 e.2 c.shared .checking = (c.shared, .creating) := by
      simp only [code, if_pos hs.1]
    exact h.quiet hplace id hcode hs
  · have hcode : code e.1 e.2 c.shared .checking = (c.shared, .leaving) := by
      simp only [code, hs.1, reduceCtorEq, if_false]
    exact h.quiet hplace id hcode hs

theorem once_step (h : Once c)
    (hguarded : CCritSectLite.Guarded (view Statics.cs Place.atCs c)) (e : τ × Unit) :
    Once (step code c e) := by
  have hsees := h.sees e.1
  cases hplace : c.place e.1 with
  | outside | returned => exact h.looks hplace id rfl
  | entering =>
      by_cases hfree : c.shared.cs = 0
      · have hcode : code e.1 e.2 c.shared .entering =
            ({ c.shared with cs := CCritSectLite.lockFlag }, .checking) := by
          simp only [code, if_pos hfree]
        exact h.quiet hplace id hcode trivial
      · have hcode : code e.1 e.2 c.shared .entering = (c.shared, .entering) := by
          simp only [code, if_neg hfree]
        exact h.quiet hplace id hcode trivial
  | checking => exact h.checks hplace hguarded
  | creating =>
      rw [hplace] at hsees
      obtain ⟨hnull, hmade, hrest⟩ := hsees
      refine h.makes hplace trivial hguarded rfl id ⟨hmade, hnull, ?_, hrest⟩ (.inl trivial)
      change c.shared.made + 1 = 1
      rw [hmade]
  | constructing ptr =>
      rw [hplace] at hsees
      obtain ⟨rfl, hnull, hrest⟩ := hsees
      exact h.makes hplace trivial hguarded rfl (fun _ => rfl) ⟨rfl, rfl, hrest⟩ (.inl trivial)
  | building ptr =>
      rw [hplace] at hsees
      obtain ⟨rfl, hptr, hmade, hfinished, hrest⟩ := hsees
      refine h.makes hplace trivial hguarded rfl id ⟨rfl, hptr, hmade, ?_, hrest⟩ (.inl trivial)
      change c.shared.finished ++ [0] = [0]
      rw [hfinished]
      rfl
  | built ptr =>
      rw [hplace] at hsees
      obtain ⟨rfl, -, hrest⟩ := hsees
      exact h.makes hplace trivial hguarded rfl (fun _ => rfl) ⟨rfl, hrest⟩ (.inl trivial)
  | scheduling =>
      rw [hplace] at hsees
      obtain ⟨hptr, hmade, hfinished, hscheduled, hdestroyed⟩ := hsees
      have hdone : { c.shared with scheduled := c.shared.scheduled + 1 }.Are
          (some 0) 1 [0] 1 := by
        refine ⟨hptr, hmade, hfinished, ?_, hdestroyed⟩
        change c.shared.scheduled + 1 = 1
        rw [hscheduled]
      exact h.makes hplace trivial hguarded rfl id hdone (.inr hdone)
  | leaving =>
      rw [hplace] at hsees
      exact h.quiet hplace id rfl hsees.1
  | reading =>
      rw [hplace] at hsees
      exact h.quiet hplace id rfl ⟨hsees, hsees⟩

end Once

theorem once_of_reaches [DecidableEq τ] {c : Threads τ Statics Place} (hc : Reaches code new c) :
    Once c :=
  hc.invariant Once once_new fun _ e hc h => h.once_step (guarded_of_reaches hc) e

/-- What is complete is destroyed once, and nothing is made anew. -/
theorem Once.exit_destroys (h : Once c) (hnone : ∀ t, (c.place t).atCs ≠ .inside) :
    (exit c.shared).destroyed = List.range c.shared.made ∧ (exit c.shared).instance_ = none := by
  rcases h.rests fun t ht => hnone t ht.inside with hs | hs
  · obtain ⟨hnull, hmade, -, hscheduled, hdestroyed⟩ := hs
    rw [exit, hscheduled, hmade]
    exact ⟨hdestroyed, hnull⟩
  · obtain ⟨hptr, hmade, -, hscheduled, hdestroyed⟩ := hs
    have hexit : exit c.shared =
        { c.shared with instance_ := none, cs := 0, destroyed := c.shared.destroyed ++ [0] } := by
      rw [exit, hscheduled, Function.iterate_one]
      simp only [destroy, hptr]
    rw [hexit, hdestroyed, hmade]
    exact ⟨rfl, rfl⟩

/-- In every interleaving at most one instance is made; the constructor of the base finds the
pointer null, as it asserts; every call answers the one instance, which is constructed or still in
its constructor; and if nobody is at the lock when the program ends, what was made is destroyed
once. -/
theorem makes_one [DecidableEq τ] {c : Threads τ Statics Place} (hc : Reaches code new c) :
    c.shared.made ≤ 1 ∧
    (∀ t ptr, c.place t = .constructing ptr → c.shared.instance_ = none) ∧
    (∀ t ptr, c.place t = .returned ptr →
      ptr = some 0 ∧ (c.shared.finished = [0] ∨ ∃ u, c.place u = .building 0)) ∧
    ((∀ t, (c.place t).atCs ≠ .inside) →
      (exit c.shared).destroyed = List.range c.shared.made ∧
      (exit c.shared).instance_ = none) := by
  have h := once_of_reaches hc
  refine ⟨?_, ?_, ?_, h.exit_destroys⟩
  · rcases h.stage with ⟨-, hmade⟩ | ⟨-, hmade, -⟩
    · exact hmade
    · exact hmade.le
  · intro t ptr hplace
    have hsees := h.sees t
    rw [hplace] at hsees
    exact hsees.2.1
  · intro t ptr hplace
    have hsees := h.sees t
    rw [hplace] at hsees
    obtain ⟨rfl, hptr⟩ := hsees
    rcases h.stage with ⟨hnull, -⟩ | ⟨-, -, hbuilt⟩
    · rw [hnull] at hptr
      cases hptr
    · exact ⟨rfl, hbuilt⟩

/-- A second thread is answered the instance while the first one is still in its constructor. -/
theorem makes_one_two :
    ∃ c : Threads Bool Statics Place, Reaches code new c ∧ c.place true = .returned (some 0) ∧
      c.shared.finished = [] ∧ ∃ u, c.place u = .building 0 := by
  let c : Threads Bool Statics Place :=
    run code new (List.replicate 5 (false, ()) ++ List.replicate 2 (true, ()))
  have hc : Reaches code new c := ⟨_, rfl⟩
  have hanswer : c.place true = .returned (some 0) := by decide
  have hfinished : c.shared.finished = [] := by decide
  obtain ⟨-, -, hreturned, -⟩ := makes_one hc
  have hbuilding := (hreturned true (some 0) hanswer).2.resolve_left (by rw [hfinished]; simp)
  exact ⟨c, hc, hanswer, hfinished, hbuilding⟩

end CSingleton
end TestCodes.TestUnits
