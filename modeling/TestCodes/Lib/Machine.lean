import Mathlib.Data.List.Basic

/-! Runs of a partial deterministic machine. A step that answers `none` is one the
modelled language gives no meaning to; a run has no state after it. -/
namespace TestCodes.Machine

variable {σ ε ω : Type*}

def run (step : σ → ε → Option σ) : σ → List ε → Option σ
  | s, [] => some s
  | s, e :: es => (step s e).bind fun t => run step t es

/-- One state becomes the other by events that are all admitted. -/
def Performs (step : σ → ε → Option σ) (admitted : ε → Prop) (s t : σ) : Prop :=
  ∃ es : List ε, (∀ e ∈ es, admitted e) ∧ run step s es = some t

/-- `ok` holds of every step of the run, in the state the step is taken from. -/
def Along (step : σ → ε → Option σ) (ok : σ → ε → Prop) : σ → List ε → Prop
  | _, [] => True
  | s, e :: es => ok s e ∧ match step s e with
      | none => True
      | some t => Along step ok t es

instance Along.decidable (step : σ → ε → Option σ) (ok : σ → ε → Prop)
    [∀ s e, Decidable (ok s e)] : ∀ s es, Decidable (Along step ok s es)
  | _, [] => inferInstanceAs (Decidable True)
  | s, e :: es =>
      match h : step s e with
      | none => decidable_of_iff (ok s e) (by simp [Along, h])
      | some t =>
          have : Decidable (Along step ok t es) := Along.decidable step ok t es
          decidable_of_iff (ok s e ∧ Along step ok t es) (by simp [Along, h])

theorem run_cons (step : σ → ε → Option σ) (s : σ) (e : ε) (es : List ε) :
    run step s (e :: es) = (step s e).bind fun t => run step t es := rfl

theorem run_append (step : σ → ε → Option σ) (s : σ) (xs ys : List ε) :
    run step s (xs ++ ys) = (run step s xs).bind fun t => run step t ys := by
  induction xs generalizing s with
  | nil => rfl
  | cons e xs ih =>
      rw [List.cons_append, run_cons, run_cons]
      cases step s e with
      | none => rfl
      | some t => exact ih t

theorem run_map {τ : Type*} {step : σ → ε → Option σ} {step' : τ → ε → Option τ} (f : σ → τ)
    (h : ∀ s e, step' (f s) e = (step s e).map f) (s : σ) (es : List ε) :
    run step' (f s) es = (run step s es).map f := by
  induction es generalizing s with
  | nil => rfl
  | cons e es ih =>
      rw [run_cons, run_cons, h]
      cases step s e with
      | none => rfl
      | some t => exact ih t

namespace Performs
variable {step : σ → ε → Option σ} {admitted : ε → Prop} {s t u : σ}

theorem refl (step : σ → ε → Option σ) (admitted : ε → Prop) (s : σ) :
    Performs step admitted s s :=
  ⟨[], fun _ h => absurd h List.not_mem_nil, rfl⟩

theorem single {e : ε} (he : admitted e) (h : step s e = some t) : Performs step admitted s t := by
  refine ⟨[e], ?_, ?_⟩
  · intro e' he'
    rwa [List.mem_singleton.mp he']
  · rw [run_cons, h]
    rfl

theorem invariant (I : σ → Prop)
    (preserved : ∀ s e t, I s → admitted e → step s e = some t → I t)
    (h : Performs step admitted s t) (hs : I s) : I t := by
  obtain ⟨es, hes, hrun⟩ := h
  induction es generalizing s with
  | nil => exact Option.some.inj hrun ▸ hs
  | cons e es ih =>
      rw [run_cons] at hrun
      obtain ⟨u, he, hu⟩ := Option.bind_eq_some_iff.mp hrun
      apply ih (preserved s e u hs (hes e List.mem_cons_self) he)
      · intro e' he'
        exact hes e' (List.mem_cons_of_mem e he')
      · exact hu

end Performs

/-- As `Performs`, with at most `n` events that have a cost. -/
def PerformsWithin (step : σ → ε → Option σ) (admitted : ε → Prop) (costs : ε → Bool) (n : ℕ)
    (s t : σ) : Prop :=
  ∃ es : List ε, (∀ e ∈ es, admitted e) ∧ es.countP costs ≤ n ∧ run step s es = some t

namespace PerformsWithin
variable {step : σ → ε → Option σ} {admitted : ε → Prop} {costs : ε → Bool} {n k : ℕ} {s t u : σ}

theorem performs {admitted' : ε → Prop} (h : PerformsWithin step admitted costs n s t)
    (himp : ∀ e, admitted e → admitted' e) : Performs step admitted' s t := by
  obtain ⟨es, hes, -, hrun⟩ := h
  exact ⟨es, fun e he => himp e (hes e he), hrun⟩

theorem refl (step : σ → ε → Option σ) (admitted : ε → Prop) (costs : ε → Bool) (n : ℕ) (s : σ) :
    PerformsWithin step admitted costs n s s :=
  ⟨[], fun _ h => absurd h List.not_mem_nil, Nat.zero_le n, rfl⟩

theorem single {e : ε} (he : admitted e) (hn : costs e = true → 1 ≤ n)
    (h : step s e = some t) : PerformsWithin step admitted costs n s t := by
  refine ⟨[e], ?_, ?_, ?_⟩
  · intro e' he'
    rwa [List.mem_singleton.mp he']
  · rw [List.countP_singleton]
    split
    · exact hn ‹_›
    · exact Nat.zero_le n
  · rw [run_cons, h]
    rfl

theorem trans (h : PerformsWithin step admitted costs n s t)
    (h' : PerformsWithin step admitted costs k t u) :
    PerformsWithin step admitted costs (n + k) s u := by
  obtain ⟨xs, hxs, hn, hs⟩ := h
  obtain ⟨ys, hys, hk, ht⟩ := h'
  refine ⟨xs ++ ys, ?_, ?_, ?_⟩
  · intro e he
    exact (List.mem_append.mp he).elim (hxs e) (hys e)
  · rw [List.countP_append]
    exact Nat.add_le_add hn hk
  · rw [run_append, hs]
    exact ht

theorem invariant (I : ℕ → σ → Prop) (mono : ∀ s n k, k ≤ n → I n s → I k s)
    (preserved : ∀ k s e t, I (k + if costs e then 1 else 0) s → admitted e →
      step s e = some t → I k t)
    (h : PerformsWithin step admitted costs n s t) (hs : I (k + n) s) : I k t := by
  obtain ⟨es, hes, hn, hrun⟩ := h
  induction es generalizing s n with
  | nil => exact Option.some.inj hrun ▸ mono s (k + n) k (Nat.le_add_right k n) hs
  | cons e es ih =>
      rw [run_cons] at hrun
      obtain ⟨u, he, hu⟩ := Option.bind_eq_some_iff.mp hrun
      rw [List.countP_cons] at hn
      refine ih (n := es.countP costs) ?_ (fun e' he' => hes e' (List.mem_cons_of_mem e he'))
        (Nat.le_refl _) hu
      apply preserved (k + es.countP costs) s e u ?_ (hes e List.mem_cons_self) he
      exact mono s (k + n) _ (by omega) hs

end PerformsWithin

theorem Along.tail {step : σ → ε → Option σ} {ok : σ → ε → Prop} {s t : σ} {e : ε}
    {es : List ε} (h : Along step ok s (e :: es)) (he : step s e = some t) :
    Along step ok t es := by
  have h2 := h.2
  rwa [he] at h2

theorem Along.of_forall {step : σ → ε → Option σ} {ok : σ → ε → Prop} {es : List ε}
    (h : ∀ e ∈ es, ∀ s, ok s e) (s : σ) : Along step ok s es := by
  induction es generalizing s with
  | nil => exact True.intro
  | cons e es ih =>
      refine ⟨h e List.mem_cons_self s, ?_⟩
      split
      · exact True.intro
      · exact ih (fun e' he' => h e' (List.mem_cons_of_mem e he')) _

theorem Along.trivial (step : σ → ε → Option σ) (s : σ) (es : List ε) :
    Along step (fun _ _ => True) s es :=
  Along.of_forall (fun _ _ _ => True.intro) s

theorem Along.and {step : σ → ε → Option σ} {ok ok' : σ → ε → Prop} {s : σ} {es : List ε}
    (h : Along step ok s es) (h' : Along step ok' s es) :
    Along step (fun s e => ok s e ∧ ok' s e) s es := by
  induction es generalizing s with
  | nil => exact True.intro
  | cons e es ih =>
      refine ⟨⟨h.1, h'.1⟩, ?_⟩
      split
      · exact True.intro
      · exact ih (h.tail ‹_›) (h'.tail ‹_›)

theorem along_iff {step : σ → ε → Option σ} {ok : σ → ε → Prop} {s : σ} {es : List ε} :
    Along step ok s es ↔ ∀ before e after, es = before ++ e :: after →
      ∀ t, run step s before = some t → ok t e := by
  induction es generalizing s with
  | nil => exact iff_of_true True.intro fun before e after h => by simp at h
  | cons e es ih =>
      constructor
      · rintro ⟨he, hes⟩ before e' after hsplit t ht
        cases before with
        | nil =>
            obtain ⟨rfl, -⟩ := List.cons.inj hsplit
            exact Option.some.inj ht ▸ he
        | cons e₁ before =>
            obtain ⟨rfl, rfl⟩ := List.cons.inj hsplit
            rw [run_cons] at ht
            obtain ⟨u, hu, ht⟩ := Option.bind_eq_some_iff.mp ht
            rw [hu] at hes
            exact ih.mp hes before e' after rfl t ht
      · intro h
        refine ⟨h [] e es rfl s rfl, ?_⟩
        split
        · exact True.intro
        · rename_i u hu
          refine ih.mpr fun before e' after hsplit t ht => ?_
          apply h (e :: before) e' after (by rw [hsplit]; rfl) t
          rw [run_cons, hu]
          exact ht

theorem along_congr {step : σ → ε → Option σ} {ok ok' : σ → ε → Prop} (I : σ → Prop)
    (same : ∀ s e, I s → (ok s e ↔ ok' s e))
    (preserved : ∀ s e t, I s → ok s e → step s e = some t → I t)
    {s : σ} (hs : I s) (es : List ε) : Along step ok s es ↔ Along step ok' s es := by
  induction es generalizing s with
  | nil => exact Iff.rfl
  | cons e es ih =>
      unfold Along
      rw [← same s e hs]
      apply and_congr_right
      intro hok
      split
      · exact Iff.rfl
      · exact ih (preserved s e _ hs hok ‹_›)

/-- The progress rule: an invariant under which every admitted step is defined. -/
theorem run_progress {step : σ → ε → Option σ} {ok : σ → ε → Prop} (I : σ → Prop)
    (preserved : ∀ s e, I s → ok s e → ∃ t, step s e = some t ∧ I t)
    {s : σ} {es : List ε} (hs : I s) (h : Along step ok s es) :
    ∃ t, run step s es = some t ∧ I t := by
  induction es generalizing s with
  | nil => exact ⟨s, rfl, hs⟩
  | cons e es ih =>
      obtain ⟨t, he, ht⟩ := preserved s e hs h.1
      obtain ⟨u, hu, hi⟩ := ih ht (h.tail he)
      exact ⟨u, by rw [run_cons, he]; exact hu, hi⟩

/-- The rule of a counting loop, whose invariant may speak of the count. -/
theorem run_range (step : σ → ℕ → Option σ) (I : ℕ → σ → Prop) {n : ℕ}
    (preserved : ∀ k s, k < n → I k s → ∃ t, step s k = some t ∧ I (k + 1) t)
    {s : σ} (hs : I 0 s) : ∃ t, run step s (List.range n) = some t ∧ I n t := by
  induction n with
  | zero => exact ⟨s, rfl, hs⟩
  | succ n ih =>
      obtain ⟨t, ht, hi⟩ := ih fun k s hk => preserved k s (Nat.lt_succ_of_lt hk)
      obtain ⟨u, hu, hi'⟩ := preserved n t (Nat.lt_succ_self n) hi
      refine ⟨u, ?_, hi'⟩
      rw [List.range_succ, run_append, ht, Option.bind_some, run_cons, hu]
      rfl

/-- The safety rule: an invariant that every defined admitted step keeps. -/
theorem run_invariant {step : σ → ε → Option σ} {ok : σ → ε → Prop} (I : σ → Prop)
    (preserved : ∀ s e t, I s → ok s e → step s e = some t → I t)
    {s t : σ} {es : List ε} (hs : I s) (h : Along step ok s es)
    (hr : run step s es = some t) : I t := by
  induction es generalizing s with
  | nil => exact Option.some.inj hr ▸ hs
  | cons e es ih =>
      rw [run_cons] at hr
      obtain ⟨u, he, hu⟩ := Option.bind_eq_some_iff.mp hr
      exact ih (preserved s e u hs h.1 he) (h.tail he) hu

theorem run_keeps {step : σ → ε → Option σ} (I : σ → Prop)
    (preserved : ∀ s e t, I s → step s e = some t → I t)
    {s t : σ} {es : List ε} (hs : I s) (hr : run step s es = some t) : I t :=
  run_invariant I (fun s e t hi _ he => preserved s e t hi he) hs (Along.trivial step s es) hr

/-- The breaking rule: admitted steps keep `Good`, the first other one leads to `Bad`,
and there is no way back. -/
theorem run_breaks {step : σ → ε → Option σ} {ok : σ → ε → Prop} (Good Bad : σ → Prop)
    (keeps : ∀ s e t, Good s → ok s e → step s e = some t → Good t)
    (breaks : ∀ s e t, Good s → ¬ ok s e → step s e = some t → Bad t)
    (stays : ∀ s e t, Bad s → step s e = some t → Bad t)
    {s t : σ} {es : List ε} (hs : Good s) (hr : run step s es = some t) :
    Along step ok s es ∧ Good t ∨ ¬ Along step ok s es ∧ Bad t := by
  induction es generalizing s with
  | nil => exact .inl ⟨True.intro, Option.some.inj hr ▸ hs⟩
  | cons e es ih =>
      rw [run_cons] at hr
      obtain ⟨u, he, hu⟩ := Option.bind_eq_some_iff.mp hr
      by_cases hok : ok s e
      · rcases ih (keeps s e u hs hok he) hu with ⟨halong, ht⟩ | ⟨halong, ht⟩
        · exact .inl ⟨⟨hok, by rwa [he]⟩, ht⟩
        · exact .inr ⟨fun h => halong (h.tail he), ht⟩
      · refine .inr ⟨fun h => hok h.1, ?_⟩
        exact run_keeps Bad stays (breaks s e u hs hok he) hu

/-- Every step of the run is defined, and `P` holds all along, the last state included. -/
def Throughout (step : σ → ε → Option σ) (P : σ → Prop) (s : σ) (es : List ε) : Prop :=
  ∀ xs, xs <+: es → ∃ t, run step s xs = some t ∧ P t

namespace Throughout
variable {step : σ → ε → Option σ} {P : σ → Prop} {s t : σ}

theorem nil (hs : P s) : Throughout step P s [] := by
  intro xs hxs
  rw [List.prefix_nil.mp hxs]
  exact ⟨s, rfl, hs⟩

theorem cons {e : ε} {es : List ε} (hs : P s) (he : step s e = some t)
    (ht : Throughout step P t es) : Throughout step P s (e :: es) := by
  intro xs hxs
  rcases List.prefix_cons_iff.mp hxs with rfl | ⟨ys, rfl, hys⟩
  · exact ⟨s, rfl, hs⟩
  · rw [run_cons, he]
    exact ht ys hys

theorem mono {Q : σ → Prop} {es : List ε} (h : Throughout step P s es)
    (hPQ : ∀ t, P t → Q t) : Throughout step Q s es := by
  intro xs hxs
  obtain ⟨t, ht, hp⟩ := h xs hxs
  exact ⟨t, ht, hPQ t hp⟩

theorem append {xs ys : List ε} (hx : Throughout step P s xs) (hs : run step s xs = some t)
    (hy : Throughout step P t ys) : Throughout step P s (xs ++ ys) := by
  rintro zs ⟨us, hzs⟩
  rcases List.append_eq_append_iff.mp hzs with ⟨ws, rfl, -⟩ | ⟨ws, rfl, hys⟩
  · exact hx zs ⟨ws, rfl⟩
  · rw [run_append, hs]
    exact hy ws ⟨us, hys.symm⟩

theorem last {es : List ε} (h : Throughout step P s es) : ∃ t, run step s es = some t ∧ P t :=
  h es List.prefix_rfl

theorem cons_iff {e : ε} {es : List ε} (he : step s e = some t) :
    Throughout step P s (e :: es) ↔ P s ∧ Throughout step P t es := by
  constructor
  · intro h
    constructor
    · obtain ⟨u, hu, hp⟩ := h [] List.nil_prefix
      exact Option.some.inj hu ▸ hp
    · intro xs hxs
      obtain ⟨u, hu, hp⟩ := h (e :: xs) (List.cons_prefix_cons.mpr ⟨rfl, hxs⟩)
      rw [run_cons, he] at hu
      exact ⟨u, hu, hp⟩
  · rintro ⟨hs, ht⟩
    exact cons hs he ht

theorem of_along {ok : σ → ε → Prop}
    (preserved : ∀ s e, P s → ok s e → ∃ t, step s e = some t ∧ P t)
    {es : List ε} (hs : P s) (h : Along step ok s es) : Throughout step P s es := by
  induction es generalizing s with
  | nil => exact nil hs
  | cons e es ih =>
      obtain ⟨t, he, ht⟩ := preserved s e hs h.1
      exact cons hs he (ih ht (h.tail he))

/-- What holds in the state a step leads to exactly when the step meets a condition, holds
throughout a run exactly when all its steps do. -/
theorem iff_along {ok : σ → ε → Prop} (I : σ → Prop) (holds : ∀ s, I s → P s)
    (same : ∀ s e t, I s → step s e = some t → (P t ↔ ok s e))
    (preserved : ∀ s e t, I s → P t → step s e = some t → I t)
    {es : List ε} (hs : I s) (hr : run step s es = some t) :
    Throughout step P s es ↔ Along step ok s es := by
  induction es generalizing s with
  | nil => exact iff_of_true (nil (holds s hs)) True.intro
  | cons e es ih =>
      rw [run_cons] at hr
      obtain ⟨u, he, hu⟩ := Option.bind_eq_some_iff.mp hr
      have hsame := same s e u hs he
      rw [cons_iff he, and_iff_right (holds s hs)]
      constructor
      · intro h
        obtain ⟨v, hv, hp⟩ := h [] List.nil_prefix
        have hpu : P u := Option.some.inj hv ▸ hp
        refine ⟨hsame.mp hpu, ?_⟩
        rw [he]
        exact (ih (preserved s e u hs hpu he) hu).mp h
      · intro h
        have hpu : P u := hsame.mpr h.1
        exact (ih (preserved s e u hs hpu he) hu).mpr (h.tail he)

end Throughout

/-! Machines whose every step is defined. -/

def always (step : σ → ε → σ) (s : σ) (e : ε) : Option σ := some (step s e)

@[simp] theorem run_always (step : σ → ε → σ) (s : σ) (es : List ε) :
    run (always step) s es = some (es.foldl step s) := by
  induction es generalizing s with
  | nil => rfl
  | cons e es ih => exact ih (step s e)

theorem foldl_invariant {step : σ → ε → σ} {ok : σ → ε → Prop} (I : σ → Prop)
    (preserved : ∀ s e, I s → ok s e → I (step s e))
    {s : σ} {es : List ε} (hs : I s) (h : Along (always step) ok s es) :
    I (es.foldl step s) := by
  have hp : ∀ s e, I s → ok s e → ∃ t, always step s e = some t ∧ I t :=
    fun s e hs hok => ⟨step s e, rfl, preserved s e hs hok⟩
  obtain ⟨t, ht, hi⟩ := run_progress I hp hs h
  rw [run_always] at ht
  exact Option.some.inj ht ▸ hi

end TestCodes.Machine
