import TestCodes.Lib.Machine
import Mathlib.Algebra.BigOperators.Group.Finset.Basic
import Mathlib.Algebra.Order.BigOperators.Group.Finset

/-! Threads that run the same code over a shared memory. A schedule names the thread that takes
each next step, and what it calls if it is in no call. -/
namespace TestCodes

@[ext] structure Threads (τ S L : Type*) where
  shared : S
  place : τ → L

namespace Threads
variable {τ S L ι : Type*}

/-- What a step makes of the shared memory and of where the thread is. -/
abbrev Code (τ ι S L : Type*) := τ → ι → S → L → S × L

section Step
variable [DecidableEq τ] (code : Code τ ι S L)

def step (c : Threads τ S L) (e : τ × ι) : Threads τ S L where
  shared := (code e.1 e.2 c.shared (c.place e.1)).1
  place := Function.update c.place e.1 (code e.1 e.2 c.shared (c.place e.1)).2

def run (c : Threads τ S L) (schedule : List (τ × ι)) : Threads τ S L :=
  schedule.foldl (step code) c

@[simp] theorem step_shared (c : Threads τ S L) (e : τ × ι) :
    (step code c e).shared = (code e.1 e.2 c.shared (c.place e.1)).1 := rfl

theorem step_place (c : Threads τ S L) (e : τ × ι) :
    (step code c e).place =
      Function.update c.place e.1 (code e.1 e.2 c.shared (c.place e.1)).2 := rfl

@[simp] theorem step_place_self (c : Threads τ S L) (e : τ × ι) :
    (step code c e).place e.1 = (code e.1 e.2 c.shared (c.place e.1)).2 :=
  Function.update_self ..

theorem step_place_other (c : Threads τ S L) {e : τ × ι} {u : τ} (hu : u ≠ e.1) :
    (step code c e).place u = c.place u :=
  Function.update_of_ne hu ..

theorem forall_step {code} {c : Threads τ S L} {e : τ × ι} {P : τ → L → Prop}
    (hself : P e.1 (code e.1 e.2 c.shared (c.place e.1)).2)
    (hothers : ∀ t, t ≠ e.1 → P t (c.place t)) (t : τ) : P t ((step code c e).place t) :=
  (Function.forall_update_iff c.place P).mpr ⟨hself, hothers⟩ t

theorem step_keeps {code} {M : Type*} (f : L → M) {c : Threads τ S L} {e : τ × ι}
    (hself : f (code e.1 e.2 c.shared (c.place e.1)).2 = f (c.place e.1)) (t : τ) :
    f ((step code c e).place t) = f (c.place t) :=
  forall_step (P := fun t l => f l = f (c.place t)) hself (fun _ _ => rfl) t

theorem run_cons (c : Threads τ S L) (e : τ × ι) (schedule : List (τ × ι)) :
    run code c (e :: schedule) = run code (step code c e) schedule := rfl

variable {code}

variable (code) in
/-- There is an interleaving that leads from the one to the other. -/
def Reaches (c₀ c : Threads τ S L) : Prop := ∃ schedule, run code c₀ schedule = c

theorem Reaches.invariant {c₀ c : Threads τ S L} (hc : Reaches code c₀ c)
    (I : Threads τ S L → Prop) (h₀ : I c₀)
    (preserved : ∀ c e, Reaches code c₀ c → I c → I (step code c e)) : I c := by
  obtain ⟨schedule, rfl⟩ := hc
  induction schedule using List.reverseRecOn with
  | nil => exact h₀
  | append_singleton schedule e ih =>
      rw [run, List.foldl_append]
      exact preserved _ e ⟨schedule, rfl⟩ ih

variable (code) in
/-- Every state that the schedule comes to is one of these. -/
def Within (P : Threads τ S L → Prop) : Threads τ S L → List (τ × ι) → Prop
  | _, [] => True
  | c, e :: schedule => P (step code c e) ∧ Within P (step code c e) schedule

instance Within.decidable (P : Threads τ S L → Prop) [DecidablePred P] :
    ∀ (c : Threads τ S L) (schedule : List (τ × ι)), Decidable (Within code P c schedule)
  | _, [] => .isTrue trivial
  | c, e :: schedule =>
      have := Within.decidable P (step code c e) schedule
      inferInstanceAs (Decidable (P (step code c e) ∧ Within code P (step code c e) schedule))

variable (code) in
def ReachesWithin (P : Threads τ S L → Prop) (c₀ c : Threads τ S L) : Prop :=
  ∃ schedule, run code c₀ schedule = c ∧ Within code P c₀ schedule

theorem Reaches.next {c₀ c : Threads τ S L} (hc : Reaches code c₀ c) (e : τ × ι) :
    Reaches code c₀ (step code c e) := by
  obtain ⟨schedule, rfl⟩ := hc
  exact ⟨schedule ++ [e], List.foldl_append⟩

theorem ReachesWithin.invariant {P : Threads τ S L → Prop} {c₀ c : Threads τ S L}
    (hc : ReachesWithin code P c₀ c) (I : Threads τ S L → Prop) (h₀ : I c₀)
    (preserved : ∀ c e, Reaches code c₀ c → P (step code c e) → I c → I (step code c e)) :
    I c := by
  obtain ⟨schedule, rfl, hwithin⟩ := hc
  suffices hrun : ∀ c, Reaches code c₀ c → I c → Within code P c schedule →
      I (run code c schedule) from hrun c₀ ⟨[], rfl⟩ h₀ hwithin
  clear hwithin
  induction schedule with
  | nil => exact fun _ _ h _ => h
  | cons e schedule ih =>
      rintro c hc h ⟨hnext, hwithin⟩
      exact ih (step code c e) (hc.next e) (preserved c e hc hnext h) hwithin

/-- The same threads, with less to be seen of the memory and of where they are. -/
def view {S' L' : Type*} (f : S → S') (g : L → L') (c : Threads τ S L) : Threads τ S' L' :=
  ⟨f c.shared, fun t => g (c.place t)⟩

omit [DecidableEq τ] in
@[simp] theorem view_shared {S' L' : Type*} (f : S → S') (g : L → L') (c : Threads τ S L) :
    (view f g c).shared = f c.shared := rfl

omit [DecidableEq τ] in
@[simp] theorem view_place {S' L' : Type*} (f : S → S') (g : L → L') (c : Threads τ S L) (t : τ) :
    (view f g c).place t = g (c.place t) := rfl

/-- Code of which each step is seen as a step of other code or as none, runs as the other code
does. -/
theorem Reaches.simulates {S' L' ι' : Type*} {code' : Code τ ι' S' L'} {f : S → S'} {g : L → L'}
    (simulates : ∀ t call s l, f (code t call s l).1 = f s ∧ g (code t call s l).2 = g l ∨
      ∃ call', code' t call' (f s) (g l) = (f (code t call s l).1, g (code t call s l).2))
    {c₀ c : Threads τ S L} (hc : Reaches code c₀ c) :
    Reaches code' (view f g c₀) (view f g c) := by
  obtain ⟨schedule, rfl⟩ := hc
  have hplace : ∀ c e, (fun t => g ((step code c e).place t)) =
      Function.update (fun t => g (c.place t)) e.1 (g (code e.1 e.2 c.shared (c.place e.1)).2) := by
    intro c e
    funext t
    by_cases ht : t = e.1
    · rw [ht, step_place_self, Function.update_self]
    · rw [step_place_other code c ht, Function.update_of_ne ht]
  induction schedule generalizing c₀ with
  | nil => exact ⟨[], rfl⟩
  | cons e schedule ih =>
      obtain ⟨schedule', hrun⟩ := @ih (step code c₀ e)
      rw [run_cons, ← hrun]
      rcases simulates e.1 e.2 c₀.shared (c₀.place e.1) with ⟨hshared, hself⟩ | ⟨call', hcode⟩
      · refine ⟨schedule', congrArg (run code' · schedule') (Threads.ext ?_ ?_)⟩
        · exact hshared.symm
        · change (fun t => g (c₀.place t)) = fun t => g ((step code c₀ e).place t)
          rw [hplace, hself]
          exact (Function.update_eq_self e.1 fun t => g (c₀.place t)).symm
      · refine ⟨(e.1, call') :: schedule', congrArg (run code' · schedule') (Threads.ext ?_ ?_)⟩
        · rw [step_shared]
          exact congrArg Prod.fst hcode
        · rw [step_place]
          change Function.update _ _ _ = fun t => g ((step code c₀ e).place t)
          rw [hplace]
          exact congrArg _ (congrArg Prod.snd hcode)

end Step

section Load
variable [Fintype τ] (w : L → ℕ) (place : τ → L)

/-- What the threads weigh together, each as much as the place where it is. -/
def load : ℕ := ∑ t, w (place t)

theorem load_update [DecidableEq τ] (t : τ) (l : L) :
    load w (Function.update place t l) + w (place t) = load w place + w l := by
  have hothers : ∑ u ∈ Finset.univ.erase t, w (Function.update place t l u) =
      ∑ u ∈ Finset.univ.erase t, w (place u) := by
    apply Finset.sum_congr rfl
    intro u hu
    rw [Function.update_of_ne (Finset.ne_of_mem_erase hu)]
  unfold load
  rw [← Finset.sum_erase_add _ _ (Finset.mem_univ t),
    ← Finset.sum_erase_add Finset.univ (fun u => w (place u)) (Finset.mem_univ t), hothers,
    Function.update_self]
  omega

theorem le_load (t : τ) : w (place t) ≤ load w place :=
  Finset.single_le_sum (f := fun u => w (place u)) (fun _ _ => Nat.zero_le _) (Finset.mem_univ t)

theorem pair_le_load [DecidableEq τ] {t u : τ} (h : t ≠ u) :
    w (place t) + w (place u) ≤ load w place := by
  rw [← Finset.sum_pair (f := fun v => w (place v)) h]
  exact Finset.sum_le_sum_of_subset (Finset.subset_univ _)

theorem load_le (k : ℕ) (h : ∀ t, w (place t) ≤ k) : load w place ≤ Fintype.card τ * k := by
  calc
    ∑ t, w (place t) ≤ ∑ _t : τ, k := Finset.sum_le_sum fun t _ => h t
    _ = Fintype.card τ * k := Finset.sum_const_nat fun _ _ => rfl

theorem load_eq_zero : load w place = 0 ↔ ∀ t, w (place t) = 0 := by
  unfold load
  rw [Finset.sum_eq_zero_iff]
  exact ⟨fun h t => h t (Finset.mem_univ t), fun h t _ => h t⟩

theorem load_add (v : L → ℕ) : load (fun l => v l + w l) place = load v place + load w place :=
  Finset.sum_add_distrib

end Load

/-- Nobody writes while another one reads or writes. -/
def ReadersWriter (reads writes : L → Prop) (place : τ → L) : Prop :=
  ∀ t u, writes (place t) → reads (place u) ∨ writes (place u) → t = u

end Threads
end TestCodes
