import TestCodes.Lib.History

/-! `CRefCount`, a reference count of compare-and-swap loops. Every look at the count is a step of
its own. -/
namespace TestCodes.TestUnits

open Threads

namespace CRefCount

inductive Call
  | refAdd
  | refDec
  deriving DecidableEq

/-- Where a thread is in a call, with the copy that it compares. -/
inductive Doing
  | nothing
  | adding
  | addingTo (prevCopy : Int32)
  | dropping
  | droppingFrom (prevCopy : Int32)
  deriving DecidableEq

structure Place where
  held : ℕ
  doing : Doing
  deriving DecidableEq

/-- The count, and the calls that have returned, the last one first. -/
structure Count (τ : Type*) where
  refcount : Int32
  history : List (τ × Call × Int32)

variable {τ : Type*}

/-- A thread that holds so many references makes only the calls that it may make. -/
def code (may : ℕ → Call → Bool) (t : τ) (call : Call) (s : Count τ) (l : Place) :
    Count τ × Place :=
  match l.doing with
  | .nothing =>
      if may l.held call then
        match call with
        | .refAdd => (s, ⟨l.held, .adding⟩)
        | .refDec => (s, ⟨l.held, .dropping⟩)
      else (s, l)
  | .adding =>
      if s.refcount ≤ 0 then (⟨s.refcount, (t, .refAdd, 0) :: s.history⟩, ⟨l.held, .nothing⟩)
      else (s, ⟨l.held, .addingTo s.refcount⟩)
  | .addingTo prevCopy =>
      if s.refcount = prevCopy then
        (⟨prevCopy + 1, (t, .refAdd, prevCopy + 1) :: s.history⟩, ⟨l.held + 1, .nothing⟩)
      else (s, ⟨l.held, .adding⟩)
  | .dropping =>
      if s.refcount ≤ 0 then (⟨s.refcount, (t, .refDec, 0) :: s.history⟩, ⟨l.held, .nothing⟩)
      else (s, ⟨l.held, .droppingFrom s.refcount⟩)
  | .droppingFrom prevCopy =>
      if s.refcount = prevCopy then
        (⟨prevCopy - 1, (t, .refDec, prevCopy - 1) :: s.history⟩, ⟨l.held - 1, .nothing⟩)
      else (s, ⟨l.held, .dropping⟩)

/-- A call made at once: the count that it leaves and what it answers. -/
def Call.atOnce : Call → Int32 → Int32 × Int32
  | .refAdd, n => if n ≤ 0 then (n, 0) else (n + 1, n + 1)
  | .refDec, n => if n ≤ 0 then (n, 0) else (n - 1, n - 1)

def Call.held : Call → Int32 → ℕ → ℕ
  | .refAdd, n, held => if n ≤ 0 then held else held + 1
  | .refDec, n, held => if n ≤ 0 then held else held - 1

def Count.after (s : Count τ) (t : τ) (made : Call) : Count τ :=
  ⟨(made.atOnce s.refcount).1, (t, made, (made.atOnce s.refcount).2) :: s.history⟩

def Doing.call : Doing → Option Call
  | .nothing => none
  | .adding | .addingTo _ => some .refAdd
  | .dropping | .droppingFrom _ => some .refDec

section Effect
variable {may : ℕ → Call → Bool} {t : τ} {call : Call} {s : Count τ} {l : Place}

def Place.Tested (l : Place) : Prop :=
  match l.doing with
  | .addingTo prevCopy | .droppingFrom prevCopy => ¬ prevCopy ≤ 0
  | .nothing | .adding | .dropping => True

/-- A step makes the call of the thread at once, or it leaves the count alone. -/
theorem code_cases (hl : l.Tested) :
    (∃ made, l.doing.call = some made ∧
      code may t call s l = (s.after t made, ⟨made.held s.refcount l.held, .nothing⟩)) ∨
    ∃ doing, code may t call s l = (s, ⟨l.held, doing⟩) ∧ Place.Tested ⟨l.held, doing⟩ ∧
      ∀ made, doing.call = some made → l.doing.call = some made ∨ may l.held made := by
  obtain ⟨held, doing⟩ := l
  cases doing with
  | nothing =>
      right
      by_cases hmay : may held call
      · cases call with
        | refAdd =>
            refine ⟨.adding, by simp only [code, if_pos hmay], trivial, ?_⟩
            rintro made ⟨⟩
            exact .inr hmay
        | refDec =>
            refine ⟨.dropping, by simp only [code, if_pos hmay], trivial, ?_⟩
            rintro made ⟨⟩
            exact .inr hmay
      · exact ⟨.nothing, by simp only [code, if_neg hmay], trivial, nofun⟩
  | adding =>
      by_cases hdead : s.refcount ≤ 0
      · left
        refine ⟨.refAdd, rfl, ?_⟩
        simp only [code, Count.after, Call.atOnce, Call.held, if_pos hdead]
      · right
        exact ⟨.addingTo s.refcount, by simp only [code, if_neg hdead], hdead, fun _ => .inl⟩
  | addingTo prevCopy =>
      by_cases hsame : s.refcount = prevCopy
      · left
        have hpos : ¬ s.refcount ≤ 0 := by rw [hsame]; exact hl
        refine ⟨.refAdd, rfl, ?_⟩
        simp only [code, Count.after, Call.atOnce, Call.held, if_pos hsame, if_neg hpos]
        rw [hsame]
      · right
        exact ⟨.adding, by simp only [code, if_neg hsame], trivial, fun _ => .inl⟩
  | dropping =>
      by_cases hdead : s.refcount ≤ 0
      · left
        refine ⟨.refDec, rfl, ?_⟩
        simp only [code, Count.after, Call.atOnce, Call.held, if_pos hdead]
      · right
        exact ⟨.droppingFrom s.refcount, by simp only [code, if_neg hdead], hdead, fun _ => .inl⟩
  | droppingFrom prevCopy =>
      by_cases hsame : s.refcount = prevCopy
      · left
        have hpos : ¬ s.refcount ≤ 0 := by rw [hsame]; exact hl
        refine ⟨.refDec, rfl, ?_⟩
        simp only [code, Count.after, Call.atOnce, Call.held, if_pos hsame, if_neg hpos]
        rw [hsame]
      · right
        exact ⟨.dropping, by simp only [code, if_neg hsame], trivial, fun _ => .inl⟩

end Effect

variable [DecidableEq τ]

/-- `Init`: the one reference is its caller's. -/
def new (owner : τ) : Threads τ (Count τ) Place :=
  ⟨⟨1, []⟩, Function.update (fun _ => ⟨0, .nothing⟩) owner ⟨1, .nothing⟩⟩

theorem new_place (owner t : τ) :
    (new owner).place t = if t = owner then ⟨1, .nothing⟩ else ⟨0, .nothing⟩ := by
  by_cases ht : t = owner
  · simp [new, ht]
  · simp [new, Function.update_of_ne, ht]

theorem tested_of_reaches {may : ℕ → Call → Bool} {owner : τ} {c : Threads τ (Count τ) Place}
    (hc : Reaches (code may) (new owner) c) : ∀ t, (c.place t).Tested := by
  refine hc.invariant (fun c => ∀ t, (c.place t).Tested) ?_ ?_
  · intro t
    rw [new_place]
    split <;> trivial
  · intro c e _ h
    refine forall_step (P := fun _ l => Place.Tested l) ?_ fun t _ => h t
    obtain ⟨made, -, hcode⟩ | ⟨doing, hcode, htested, -⟩ := code_cases (h e.1)
    · rw [hcode]
      trivial
    · rw [hcode]
      exact htested

/-- Whatever the threads call, in every interleaving the calls answer and count as if each were
made at once, in the order in which they return. -/
theorem returns_one_by_one {may : ℕ → Call → Bool} {owner : τ} {c : Threads τ (Count τ) Place}
    (hc : Reaches (code may) (new owner) c) :
    Sequential Call.atOnce 1 c.shared.history c.shared.refcount := by
  refine hc.sequential Call.atOnce Count.refcount Count.history rfl ?_
  intro c e hc
  obtain ⟨made, -, hcode⟩ | ⟨doing, hcode, -⟩ := code_cases (tested_of_reaches hc e.1)
  · right
    rw [step_shared, hcode]
    exact ⟨made, rfl, rfl⟩
  · left
    rw [step_shared, hcode]
    exact ⟨rfl, rfl⟩

/-- A thread that has found the count 1 when the last reference is dropped is answered 0. -/
theorem returns_one_by_one_late :
    ∃ c : Threads Bool (Count Bool) Place, Reaches (code fun _ _ => true) (new true) c ∧
      c.shared.history = [(false, .refAdd, 0), (true, .refDec, 0)] ∧
      Sequential Call.atOnce 1 c.shared.history c.shared.refcount := by
  let c : Threads Bool (Count Bool) Place := run (code fun _ _ => true) (new true)
    (List.replicate 2 (false, .refAdd) ++ List.replicate 3 (true, .refDec) ++
      List.replicate 2 (false, .refAdd))
  have hc : Reaches (code fun _ _ => true) (new true) c := ⟨_, rfl⟩
  exact ⟨c, hc, by decide, returns_one_by_one hc⟩

section Careful

/-- Threads drop only what they hold. -/
def careful (held : ℕ) : Call → Bool
  | .refAdd => true
  | .refDec => 0 < held

def Count.zeros (s : Count τ) : ℕ :=
  s.history.countP fun entry => entry.2 = (.refDec, 0)

omit [DecidableEq τ] in
theorem zeros_refAdd (s : Count τ) (t : τ) : (s.after t .refAdd).zeros = s.zeros := by
  simp [Count.zeros, Count.after]

omit [DecidableEq τ] in
theorem zeros_refDec (s : Count τ) (t : τ) :
    (s.after t .refDec).zeros =
      s.zeros + if (Call.refDec.atOnce s.refcount).2 = 0 then 1 else 0 := by
  simp [Count.zeros, Count.after, List.countP_cons]

theorem toInt_succ {n : Int32} (h : n.toInt + 1 < 2 ^ 31) : (n + 1).toInt = n.toInt + 1 := by
  have hle := n.le_toInt
  rw [Int32.toInt_add]
  exact Int.bmod_eq_of_le (by change -2147483648 ≤ n.toInt + 1; omega)
    (by change n.toInt + 1 < 2147483648; omega)

theorem toInt_pred {n : Int32} (h : 0 < n.toInt) : (n - 1).toInt = n.toInt - 1 := by
  have hlt := n.toInt_lt
  rw [Int32.toInt_sub]
  exact Int.bmod_eq_of_le (by change -2147483648 ≤ n.toInt - 1; omega)
    (by change n.toInt - 1 < 2147483648; omega)

theorem eq_zero_iff {n : Int32} : n = 0 ↔ n.toInt = 0 :=
  Int32.toInt_inj.symm

theorem not_dead_iff {n : Int32} : ¬ n ≤ 0 ↔ 0 < n.toInt := by
  rw [Int32.le_iff_toInt_le, Int.not_le]
  rfl

/-- Nobody holds a reference, and the calls that have returned since have answered 0. -/
structure Dead (earlier : List (τ × Call × Int32)) (c : Threads τ (Count τ) Place) : Prop where
  zero : c.shared.refcount = 0
  held : ∀ t, (c.place t).held = 0
  tested : ∀ t, (c.place t).Tested
  answers : ∃ calls : List (τ × Call × Int32), c.shared.history = calls ++ earlier ∧
    ∀ call ∈ calls, call.2.2 = 0

theorem Dead.step {may : ℕ → Call → Bool} {earlier : List (τ × Call × Int32)}
    {c : Threads τ (Count τ) Place} (h : Dead earlier c) (e : τ × Call) :
    Dead earlier (step (code may) c e) := by
  obtain ⟨calls, hhistory, hanswers⟩ := h.answers
  have hcases := @code_cases τ may e.1 e.2 c.shared (c.place e.1) (h.tested e.1)
  obtain ⟨made, -, hcode⟩ | ⟨doing, hcode, htested, -⟩ := hcases
  · have hzero : made.atOnce c.shared.refcount = (0, 0) ∧ made.held c.shared.refcount 0 = 0 := by
      rw [h.zero]
      cases made <;> exact ⟨rfl, rfl⟩
    rw [h.held e.1, hzero.2] at hcode
    refine ⟨?_, ?_, ?_, (e.1, made, 0) :: calls, ?_, List.forall_mem_cons.mpr ⟨rfl, hanswers⟩⟩
    · rw [step_shared, hcode, Count.after, hzero.1]
    · refine forall_step (P := fun _ (l : Place) => l.held = 0) ?_ fun t _ => h.held t
      rw [hcode]
    · refine forall_step (P := fun _ l => Place.Tested l) ?_ fun t _ => h.tested t
      rw [hcode]
      trivial
    · rw [step_shared, hcode, Count.after, hzero.1, hhistory]
      rfl
  · refine ⟨?_, ?_, ?_, calls, ?_, hanswers⟩
    · rw [step_shared, hcode]
      exact h.zero
    · refine forall_step (P := fun _ (l : Place) => l.held = 0) ?_ fun t _ => h.held t
      rw [hcode]
      exact h.held e.1
    · refine forall_step (P := fun _ l => Place.Tested l) ?_ fun t _ => h.tested t
      rw [hcode]
      exact htested
    · rw [step_shared, hcode]
      exact hhistory

variable [Fintype τ]

def Fits (c : Threads τ (Count τ) Place) : Prop :=
  load Place.held c.place < 2 ^ 31

omit [DecidableEq τ] in
instance Fits.decidable (c : Threads τ (Count τ) Place) : Decidable (Fits c) :=
  inferInstanceAs (Decidable (load Place.held c.place < 2 ^ 31))

/-- The count is that of the references held, `RefDec` has answered 0 when nobody holds one, and
threads are in no other call than they may make. -/
structure Counted (c : Threads τ (Count τ) Place) : Prop where
  count : c.shared.refcount.toInt = load Place.held c.place
  zeros : c.shared.zeros = if c.shared.refcount = 0 then 1 else 0
  calls : ∀ t made, (c.place t).doing.call = some made → careful (c.place t).held made
  tested : ∀ t, (c.place t).Tested

theorem counted_new (owner : τ) : Counted (new owner : Threads τ (Count τ) Place) where
  count := by
    have hnone : load Place.held (fun _ : τ => ⟨0, .nothing⟩) = 0 :=
      (load_eq_zero _ _).mpr fun _ => rfl
    have hload := load_update Place.held (fun _ : τ => ⟨0, .nothing⟩) owner ⟨1, .nothing⟩
    rw [hnone] at hload
    change (1 : ℤ) = (load Place.held (Function.update _ owner _) : ℕ)
    rw [show load Place.held (Function.update _ owner _) = 1 from hload]
    rfl
  zeros := rfl
  calls t := by
    rw [new_place]
    split <;> exact nofun
  tested t := by
    rw [new_place]
    split <;> trivial

namespace Counted
variable {c : Threads τ (Count τ) Place}

omit [DecidableEq τ] in
theorem positive_of_held (h : Counted c) {t : τ} (ht : 0 < (c.place t).held) :
    0 < c.shared.refcount.toInt := by
  have hle := le_load Place.held c.place t
  rw [h.count]
  omega

omit [DecidableEq τ] in
theorem zero_iff (h : Counted c) :
    c.shared.refcount = 0 ↔ ∀ t, (c.place t).held = 0 := by
  rw [eq_zero_iff, h.count, ← load_eq_zero Place.held]
  omega

theorem of_step (h : Counted c) {e : τ × Call} {s : Count τ} {l : Place}
    (hcode : code careful e.1 e.2 c.shared (c.place e.1) = (s, l))
    (hcount : s.refcount.toInt + (c.place e.1).held = c.shared.refcount.toInt + l.held)
    (hzeros : s.zeros = if s.refcount = 0 then 1 else 0)
    (hcalls : ∀ made, l.doing.call = some made → careful l.held made) (htested : l.Tested) :
    Counted (step (code careful) c e) := by
  have hload := load_update Place.held c.place e.1 l
  have hbefore := h.count
  refine ⟨?_, ?_, ?_, ?_⟩
  · rw [step_shared, step_place, hcode]
    change s.refcount.toInt = load Place.held (Function.update c.place e.1 l)
    omega
  · rw [step_shared, hcode]
    exact hzeros
  · refine forall_step (P := fun _ (l : Place) => ∀ made, l.doing.call = some made →
      careful l.held made) ?_ fun t _ => h.calls t
    rw [hcode]
    exact hcalls
  · refine forall_step (P := fun _ l => Place.Tested l) ?_ fun t _ => h.tested t
    rw [hcode]
    exact htested

theorem adds (h : Counted c) {e : τ × Call} (hfits : Fits (step (code careful) c e))
    (hcode : code careful e.1 e.2 c.shared (c.place e.1) = (c.shared.after e.1 .refAdd,
      ⟨Call.refAdd.held c.shared.refcount (c.place e.1).held, .nothing⟩)) :
    Counted (step (code careful) c e) := by
  have hzeros := zeros_refAdd c.shared e.1
  by_cases hdead : c.shared.refcount ≤ 0
  · simp only [Count.after, Call.atOnce, Call.held, if_pos hdead] at hcode hzeros
    exact h.of_step hcode rfl (hzeros.trans h.zeros) nofun trivial
  · simp only [Count.after, Call.atOnce, Call.held, if_neg hdead] at hcode hzeros
    have hpos := not_dead_iff.mp hdead
    have hcount := h.count
    have hload := load_update Place.held c.place e.1 ⟨(c.place e.1).held + 1, .nothing⟩
    rw [Fits, step_place, hcode] at hfits
    change load Place.held (Function.update c.place e.1 ⟨_, .nothing⟩) < 2 ^ 31 at hfits
    change _ + _ = _ + ((c.place e.1).held + 1) at hload
    have hadd := toInt_succ (n := c.shared.refcount) (by omega)
    refine h.of_step hcode ?_ ?_ nofun trivial
    · change (c.shared.refcount + 1).toInt + (c.place e.1).held = _ + ((c.place e.1).held + 1 : ℕ)
      omega
    · rw [hzeros, h.zeros, if_neg (by rw [eq_zero_iff]; omega),
        if_neg (by rw [eq_zero_iff]; change (c.shared.refcount + 1).toInt ≠ 0; omega)]

theorem drops (h : Counted c) {e : τ × Call} (hheld : 0 < (c.place e.1).held)
    (hcode : code careful e.1 e.2 c.shared (c.place e.1) = (c.shared.after e.1 .refDec,
      ⟨Call.refDec.held c.shared.refcount (c.place e.1).held, .nothing⟩)) :
    Counted (step (code careful) c e) := by
  have hpos := h.positive_of_held hheld
  have hdead := not_dead_iff.mpr hpos
  have hzeros := zeros_refDec c.shared e.1
  simp only [Count.after, Call.atOnce, Call.held, if_neg hdead] at hcode hzeros
  have hsub := toInt_pred hpos
  refine h.of_step hcode ?_ ?_ nofun trivial
  · change (c.shared.refcount - 1).toInt + (c.place e.1).held = _ + ((c.place e.1).held - 1 : ℕ)
    omega
  · rw [hzeros, h.zeros, if_neg (by rw [eq_zero_iff]; omega), Nat.zero_add]

theorem counted_step (h : Counted c) (e : τ × Call) (hfits : Fits (step (code careful) c e)) :
    Counted (step (code careful) c e) := by
  obtain ⟨made, hmade, hcode⟩ | ⟨doing, hcode, htested, hcalls⟩ := code_cases (h.tested e.1)
  · cases made with
    | refAdd => exact h.adds hfits hcode
    | refDec => exact h.drops (of_decide_eq_true (h.calls e.1 .refDec hmade)) hcode
  · refine h.of_step hcode rfl h.zeros ?_ htested
    intro made hmade
    exact (hcalls made hmade).elim (h.calls e.1 made) id

end Counted

theorem counted_of_reaches {owner : τ} {c : Threads τ (Count τ) Place}
    (hc : ReachesWithin (code careful) Fits (new owner) c) : Counted c :=
  hc.invariant Counted (counted_new owner) fun _ e _ hfits h => h.counted_step e hfits

/-- In every interleaving the count is that of the references held, and `RefDec` has answered 0 once
if nobody holds a reference any more, and never before; and then, whatever is called, the count
stays 0, every answer is 0 and nobody gets a reference. -/
theorem drops_last_once {owner : τ} {c : Threads τ (Count τ) Place}
    (hc : ReachesWithin (code careful) Fits (new owner) c) :
    c.shared.refcount.toInt = load Place.held c.place ∧
    (c.shared.zeros = if ∀ t, (c.place t).held = 0 then 1 else 0) ∧
    ((∀ t, (c.place t).held = 0) → ∀ may c', Reaches (code may) c c' →
      c'.shared.refcount = 0 ∧ (∀ t, (c'.place t).held = 0) ∧
      ∃ calls, c'.shared.history = calls ++ c.shared.history ∧ ∀ call ∈ calls, call.2.2 = 0) := by
  have h := counted_of_reaches hc
  refine ⟨h.count, ?_, ?_⟩
  · rw [h.zeros]
    simp only [h.zero_iff]
  · intro hnone may c' hc'
    have hdead : Dead c.shared.history c :=
      ⟨h.zero_iff.mpr hnone, hnone, h.tested, [], rfl, fun _ hcall => absurd hcall List.not_mem_nil⟩
    have hdead' := hc'.invariant (Dead c.shared.history) hdead fun _ e _ h => h.step e
    exact ⟨hdead'.zero, hdead'.held, hdead'.answers⟩

/-- One thread shares the count with another one and both drop it, the owner first. -/
theorem drops_last_once_two :
    ∃ c : Threads Bool (Count Bool) Place, ReachesWithin (code careful) Fits (new true) c ∧
      c.shared.zeros = 1 ∧
      ∀ may c', Reaches (code may) c c' → c'.shared.refcount = 0 := by
  let add (t : Bool) := List.replicate 3 (t, Call.refAdd)
  let drop (t : Bool) := List.replicate 3 (t, Call.refDec)
  let c : Threads Bool (Count Bool) Place :=
    run (code careful) (new true) (add false ++ drop true ++ drop false)
  have hc : ReachesWithin (code careful) Fits (new true) c := ⟨_, rfl, by decide⟩
  obtain ⟨-, hzeros, hstays⟩ := drops_last_once hc
  have hnone : ∀ t, (c.place t).held = 0 := by decide
  refine ⟨c, hc, ?_, fun may c' hc' => (hstays hnone may c' hc').1⟩
  rw [hzeros, if_pos hnone]

end Careful

end CRefCount
end TestCodes.TestUnits
