import TestCodes.Lib.Machine
import TestCodes.SvrMaster.SessionValidator
import Mathlib.Algebra.Ring.Nat
import Mathlib.Data.List.Nodup
import Mathlib.Logic.Function.Basic

/-! `GenerateSessionKey` under any number of callers at once: each increment of the generator
and the read after it are steps of their own. -/
namespace TestCodes.SvrMaster

open Machine

/-- Where a thread is in `GenerateSessionKey`: outside, behind an increment to 0, or in front
of the read. -/
inductive Caller
  | outside
  | atZero
  | incremented
  deriving DecidableEq

/-- The generator, its callers, and the keys they were given. -/
structure SharedGenerator (τ : Type*) where
  generator : UInt64
  caller : τ → Caller
  keys : List (τ × SessionKey)

namespace SharedGenerator
variable {τ : Type*}

def new : SharedGenerator τ := ⟨0, fun _ => .outside, []⟩

def numbers (g : SharedGenerator τ) : List ℕ := (g.keys.map Prod.snd).map UInt64.toNat

variable [DecidableEq τ]

def step (g : SharedGenerator τ) (t : τ) : SharedGenerator τ :=
  match g.caller t with
  | .outside =>
      let generator := g.generator + 1
      { g with
        generator
        caller := Function.update g.caller t (if generator = 0 then .atZero else .incremented) }
  | .atZero =>
      { g with
        generator := g.generator + 1
        caller := Function.update g.caller t .incremented }
  | .incremented =>
      { g with
        caller := Function.update g.caller t .outside
        keys := g.keys ++ [(t, g.generator)] }

/-- No increment falls between the increment of another thread and its read. -/
def Undisturbed (g : SharedGenerator τ) (t : τ) : Prop :=
  g.caller t ≠ .incremented → ∀ u, g.caller u ≠ .incremented

/-- At most one thread is in a call, and in front of its read; the keys are the numbers from 1
on, and the generator is the last key or the next one. -/
structure Orderly (g : SharedGenerator τ) : Prop where
  numbers : g.numbers = List.range' 1 g.keys.length
  callers : (∀ u, g.caller u = .outside) ∧ g.generator.toNat = g.keys.length ∨
    ∃ t, g.caller t = .incremented ∧ (∀ u, u ≠ t → g.caller u = .outside) ∧
      g.generator.toNat = g.keys.length + 1

omit [DecidableEq τ] in
theorem orderly_new : Orderly (new : SharedGenerator τ) :=
  ⟨rfl, .inl ⟨fun _ => rfl, rfl⟩⟩

theorem step_keys (g : SharedGenerator τ) (t : τ) :
    g.keys.length ≤ (g.step t).keys.length := by
  unfold step
  split
  · exact Nat.le_refl _
  · exact Nat.le_refl _
  · rw [List.length_append]
    exact Nat.le_add_right _ _

theorem run_keys (g : SharedGenerator τ) (schedule : List τ) :
    g.keys.length ≤ (schedule.foldl step g).keys.length := by
  induction schedule generalizing g with
  | nil => exact Nat.le_refl _
  | cons t schedule ih => exact Nat.le_trans (g.step_keys t) (ih (g.step t))

theorem step_increment {g : SharedGenerator τ} {t : τ} (ht : g.caller t ≠ .incremented)
    (hwrap : g.generator + 1 ≠ 0) :
    g.step t = { g with
      generator := g.generator + 1
      caller := Function.update g.caller t .incremented } := by
  cases hcaller : g.caller t with
  | outside => simp only [step, hcaller, if_neg hwrap]
  | atZero => simp only [step, hcaller]
  | incremented => exact absurd hcaller ht

theorem step_read {g : SharedGenerator τ} {t : τ} (ht : g.caller t = .incremented) :
    g.step t = { g with
      caller := Function.update g.caller t .outside
      keys := g.keys ++ [(t, g.generator)] } := by
  simp only [step, ht]

theorem call_alone {g : SharedGenerator τ} {t : τ} (ht : g.caller t = .outside)
    {v : CSessionValidator} (hv : v.generator = g.generator) :
    ∃ n, (List.replicate n t).foldl step g = { g with
      generator := v.generateSessionKey.2.generator
      keys := g.keys ++ [(t, v.nextKey)] } := by
  have hback : Function.update g.caller t .outside = g.caller := by
    rw [← ht, Function.update_eq_self]
  unfold CSessionValidator.nextKey CSessionValidator.generateSessionKey
  by_cases hwrap : g.generator + 1 = 0
  · refine ⟨3, ?_⟩
    simp [List.replicate, step, ht, hwrap, hv, hback]
  · refine ⟨2, ?_⟩
    simp [List.replicate, step, ht, hwrap, hv, hback]

theorem Orderly.increment {g : SharedGenerator τ} (h : g.Orderly) {t : τ}
    (hout : ∀ u, g.caller u = .outside) (hgen : g.generator.toNat = g.keys.length)
    (hfew : g.keys.length < 2 ^ 64 - 1) : (g.step t).Orderly := by
  have hnext : (g.generator + 1).toNat = g.keys.length + 1 := by
    rw [UInt64.toNat_add, hgen]
    exact Nat.mod_eq_of_lt (by change g.keys.length + 1 < 2 ^ 64; omega)
  have hne : g.generator + 1 ≠ 0 := by
    intro hzero
    rw [hzero] at hnext
    exact absurd hnext (by change 0 ≠ _; omega)
  rw [step_increment (by rw [hout t]; decide) hne]
  refine ⟨h.numbers, .inr ⟨t, Function.update_self .., ?_, hnext⟩⟩
  intro u hu
  exact (Function.update_of_ne hu ..).trans (hout u)

theorem Orderly.read {g : SharedGenerator τ} (h : g.Orderly) {t : τ}
    (ht : g.caller t = .incremented) (hothers : ∀ u, u ≠ t → g.caller u = .outside)
    (hgen : g.generator.toNat = g.keys.length + 1) : (g.step t).Orderly := by
  rw [step_read ht]
  refine ⟨?_, .inl ⟨?_, ?_⟩⟩
  · change ((g.keys ++ [(t, g.generator)]).map Prod.snd).map UInt64.toNat = _
    rw [List.map_append, List.map_append, List.length_append, List.length_singleton,
      List.range'_concat, ← h.numbers, Nat.one_mul, Nat.add_comm 1, ← hgen]
    rfl
  · intro u
    by_cases hu : u = t
    · rw [hu]
      exact Function.update_self ..
    · exact (Function.update_of_ne hu ..).trans (hothers u hu)
  · rw [List.length_append]
    exact hgen

theorem Orderly.step {g : SharedGenerator τ} (h : g.Orderly) {t : τ}
    (hundisturbed : g.Undisturbed t) (hfew : g.keys.length < 2 ^ 64 - 1) : (g.step t).Orderly := by
  rcases h.callers with ⟨hout, hgen⟩ | ⟨u, hu, hothers, hgen⟩
  · exact h.increment hout hgen hfew
  · have ht : t = u := by
      by_contra hne
      refine hundisturbed ?_ u hu
      rw [hothers t hne]
      decide
    subst ht
    exact h.read hu hothers hgen

theorem few_along {schedule : List τ} (g : SharedGenerator τ)
    (hfew : (schedule.foldl SharedGenerator.step g).keys.length < 2 ^ 64 - 1) :
    Along (always SharedGenerator.step) (fun g _ => g.keys.length < 2 ^ 64 - 1) g schedule := by
  rw [along_iff]
  rintro before t after rfl g' hg'
  rw [run_always] at hg'
  rw [List.foldl_append, Option.some.inj hg'] at hfew
  exact Nat.lt_of_le_of_lt (g'.run_keys (t :: after)) hfew

/-- An increment in front of another thread's read gives both the same key, when both go on. -/
theorem disturbed_repeats {g : SharedGenerator τ} {t : τ} (h : ¬ g.Undisturbed t)
    (hwrap : g.generator + 1 ≠ 0) :
    ∃ u, ¬ (([t, u, t].foldl SharedGenerator.step g).keys.map Prod.snd).Nodup := by
  obtain ⟨ht, hsome⟩ := Classical.not_imp.mp h
  obtain ⟨u, hu⟩ := not_forall.mp hsome
  rw [not_not] at hu
  have hne : u ≠ t := by
    rintro rfl
    exact ht hu
  refine ⟨u, ?_⟩
  have hu' : (g.step t).caller u = .incremented := by
    rw [step_increment ht hwrap]
    exact (Function.update_of_ne hne ..).trans hu
  have ht' : ((g.step t).step u).caller t = .incremented := by
    rw [step_read hu', step_increment ht hwrap]
    exact (Function.update_of_ne hne.symm ..).trans (Function.update_self ..)
  have hkeys : (((g.step t).step u).step t).keys =
      g.keys ++ [(u, g.generator + 1)] ++ [(t, g.generator + 1)] := by
    rw [step_read ht', step_read hu', step_increment ht hwrap]
  change ¬ ((((g.step t).step u).step t).keys.map Prod.snd).Nodup
  rw [hkeys, List.append_assoc, List.map_append]
  intro hnodup
  have hpair := (List.nodup_append.mp hnodup).2.1
  exact (List.nodup_cons.mp hpair).1 List.mem_cons_self

end SharedGenerator

open SharedGenerator

/-- The keys of every interleaving in which no increment falls between the increment of
another thread and its read are distinct, and none is 0. -/
theorem keys_distinct {τ : Type*} [DecidableEq τ] {schedule : List τ}
    (h : Along (always step) Undisturbed new schedule)
    (hfew : (schedule.foldl step new).keys.length < 2 ^ 64 - 1) :
    ((schedule.foldl step new).keys.map Prod.snd).Nodup ∧
      0 ∉ (schedule.foldl step new).keys.map Prod.snd := by
  have horderly : (schedule.foldl step new).Orderly := by
    apply foldl_invariant Orderly ?_ orderly_new (h.and (few_along new hfew))
    intro g t hg hok
    exact hg.step hok.1 hok.2
  have hnumbers := horderly.numbers
  unfold SharedGenerator.numbers at hnumbers
  constructor
  · apply List.Nodup.of_map UInt64.toNat
    rw [hnumbers]
    exact List.nodup_range'
  · intro hzero
    have hmem := List.mem_map_of_mem (f := UInt64.toNat) hzero
    rw [hnumbers] at hmem
    exact absurd (List.mem_range'_1.mp hmem).1 (by decide)

/-- Two callers, one after the other. -/
theorem keys_distinct_callers :
    Along (always step) Undisturbed (new : SharedGenerator Bool) [false, false, true, true] ∧
      (([false, false, true, true].foldl step new).keys.map Prod.snd).Nodup ∧
        0 ∉ ([false, false, true, true].foldl step new).keys.map Prod.snd := by
  have h : Along (always step) Undisturbed (new : SharedGenerator Bool)
      [false, false, true, true] := by
    refine ⟨?_, ?_, ?_, ?_, True.intro⟩
    all_goals
      unfold Undisturbed
      decide
  exact ⟨h, keys_distinct h (by decide)⟩

/-- Both callers increment, and then both read. -/
theorem same_key_twice :
    ¬ (([false, true, false, true].foldl step new).keys.map Prod.snd).Nodup := by
  decide

end TestCodes.SvrMaster
