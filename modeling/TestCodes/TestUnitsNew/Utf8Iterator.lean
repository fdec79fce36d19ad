import TestCodes.TestUnitsNew.Utf8Checked

/-! utf8/checked.h: moving an iterator by code points, backwards too. What is before an iterator
stands here with the octet nearest to it first. -/
namespace TestCodes.TestUnitsNew.Utf8
open Unicode

/-- `while (is_trail(*(--it)))`: what is before the place it stops at, and the octets it passed. -/
def goBack : List UInt8 → List UInt8 → Except Exception (List UInt8 × List UInt8)
  | [], passed => .ok ([], passed)
  | oc :: before, passed =>
    if isTrail oc then
      if before = [] then .error (.invalidUtf8 oc) else goBack before (oc :: passed)
    else .ok (before, oc :: passed)

def prior (before : List UInt8) : Except Exception (UInt32 × List UInt8) := do
  if before = [] then throw .notEnoughRoom
  let (before, passed) ← goBack before []
  let cp ← peekNext passed
  return (cp, before)

def advance : List UInt8 → ℕ → Except Exception (List UInt8)
  | it, 0 => .ok it
  | it, n + 1 => do
    let (_, it) ← next it
    advance it n

def distanceFrom (dist : ℕ) (first : List UInt8) : Except Exception ℕ :=
  if first = [] then .ok dist
  else match _h : next first with
    | .ok (_, it) => distanceFrom (dist + 1) it
    | .error e => .error e
termination_by first.length
decreasing_by exact next_length _h

def distance (first : List UInt8) : Except Exception ℕ := distanceFrom 0 first

theorem goBack_sound {before before' passed passed' : List UInt8} (hne : before ≠ [])
    (h : goBack before passed = .ok (before', passed')) :
    ∃ b trails, before = trails ++ b :: before' ∧ (∀ x ∈ trails, IsTail x) ∧
      passed' = b :: (trails.reverse ++ passed) := by
  induction before generalizing passed with
  | nil => exact absurd rfl hne
  | cons oc before ih =>
    rw [goBack] at h
    split_ifs at h with htrail hnil
    · obtain ⟨b, trails, rfl, htrails, rfl⟩ := ih hnil h
      refine ⟨b, oc :: trails, rfl, ?_, by simp⟩
      exact List.forall_mem_cons.mpr ⟨(isTrail_iff oc).mp htrail, htrails⟩
    · obtain ⟨rfl, rfl⟩ := Prod.mk.inj (Except.ok.inj h)
      exact ⟨oc, [], rfl, by simp, rfl⟩

theorem goBack_append {b : UInt8} {trails : List UInt8} (hb : ¬ IsTail b)
    (htrails : ∀ x ∈ trails, IsTail x) (before passed : List UInt8) :
    goBack (trails ++ b :: before) passed = .ok (before, b :: (trails.reverse ++ passed)) := by
  induction trails generalizing passed with
  | nil =>
    rw [List.nil_append, goBack, if_neg (by rwa [isTrail_iff])]
    rfl
  | cons x trails ih =>
    obtain ⟨hx, hxs⟩ := List.forall_mem_cons.mp htrails
    rw [List.cons_append, goBack, if_pos ((isTrail_iff x).mpr hx), if_neg (by simp), ih hxs]
    simp

theorem peekNext_eq_ok {it : List UInt8} {cp : UInt32} :
    peekNext it = .ok cp ↔ ∃ c : Char, c.val = cp ∧ String.utf8EncodeChar c <+: it := by
  unfold peekNext
  constructor
  · intro h
    cases hnext : next it with
    | error e =>
      rw [hnext] at h
      cases h
    | ok r =>
      rw [hnext] at h
      cases h
      obtain ⟨c, hc, rfl⟩ := next_eq_ok.mp hnext
      exact ⟨c, hc, List.prefix_append _ _⟩
  · rintro ⟨c, rfl, rest, rfl⟩
    rw [next_eq_ok.mpr ⟨c, rfl, rfl⟩]
    rfl

/-- `prior` takes the last character that starts before the iterator: it does not look whether
octets follow the character that no character accounts for. -/
theorem prior_eq_ok_iff {before before' : List UInt8} {cp : UInt32} :
    prior before = .ok (cp, before') ↔
      ∃ c : Char, c.val = cp ∧ ∃ stray, (∀ x ∈ stray, IsTail x) ∧
        before = stray ++ (String.utf8EncodeChar c).reverse ++ before' := by
  constructor
  · intro h
    by_cases hne : before = []
    · subst hne
      cases h
    · rw [prior, if_neg hne] at h
      obtain ⟨⟨back, passed⟩, hback, h⟩ := bind_eq_ok.mp h
      obtain ⟨b, trails, rfl, htrails, rfl⟩ := goBack_sound hne hback
      obtain ⟨_, hpeek, hret⟩ := bind_eq_ok.mp h
      cases hret
      obtain ⟨c, hc, rest, hrest⟩ := peekNext_eq_ok.mp hpeek
      obtain ⟨b', bs, heq, -, -⟩ := utf8EncodeChar_tails c
      rw [heq, List.append_nil] at hrest
      obtain ⟨rfl, hbs⟩ := List.cons.inj hrest
      change bs ++ rest = trails.reverse at hbs
      have htr : trails = rest.reverse ++ bs.reverse := by
        rw [← List.reverse_append, hbs, List.reverse_reverse]
      refine ⟨c, hc, rest.reverse, fun x hx => htrails x ?_, ?_⟩
      · rw [htr]
        exact List.mem_append_left _ hx
      · rw [heq, htr]
        simp
  · rintro ⟨c, rfl, stray, hstray, rfl⟩
    obtain ⟨b, bs, heq, hb, hbs⟩ := utf8EncodeChar_tails c
    have htrails : ∀ x ∈ stray ++ bs.reverse, IsTail x := by
      simp only [List.mem_append, List.mem_reverse]
      rintro x (hx | hx)
      · exact hstray x hx
      · exact hbs x hx
    have hsplit : stray ++ (String.utf8EncodeChar c).reverse ++ before' =
        (stray ++ bs.reverse) ++ b :: before' := by
      rw [heq]
      simp
    have hpeek : peekNext (b :: ((stray ++ bs.reverse).reverse ++ [])) = .ok c.val :=
      peekNext_eq_ok.mpr ⟨c, rfl, stray.reverse, by simp [heq]⟩
    rw [hsplit, prior, if_neg (by simp)]
    refine bind_eq_ok.mpr ⟨_, goBack_append hb htrails before' [], ?_⟩
    exact bind_eq_ok.mpr ⟨_, hpeek, rfl⟩

theorem advance_eq_ok {it rest : List UInt8} {n : ℕ} :
    advance it n = .ok rest ↔ ∃ cs : List Char, cs.length = n ∧ it = encode8 cs ++ rest := by
  induction n generalizing it with
  | zero =>
    rw [advance]
    constructor
    · intro h
      exact ⟨[], rfl, Except.ok.inj h⟩
    · rintro ⟨cs, hlen, rfl⟩
      rw [List.length_eq_zero_iff.mp hlen]
      rfl
  | succ n ih =>
    rw [advance, bind_eq_ok]
    constructor
    · rintro ⟨⟨cp, it'⟩, hnext, h⟩
      obtain ⟨c, -, rfl⟩ := next_eq_ok.mp hnext
      obtain ⟨cs, rfl, rfl⟩ := ih.mp h
      exact ⟨c :: cs, rfl, by simp⟩
    · rintro ⟨cs, hlen, rfl⟩
      obtain ⟨c, cs, rfl⟩ := List.exists_cons_of_length_eq_add_one hlen
      refine ⟨(c.val, encode8 cs ++ rest), next_eq_ok.mpr ⟨c, rfl, by simp⟩, ?_⟩
      exact ih.mpr ⟨cs, Nat.succ.inj hlen, rfl⟩

theorem distanceFrom_eq_ok {first : List UInt8} {dist n : ℕ} :
    distanceFrom dist first = .ok n ↔
      ∃ cs : List Char, dist + cs.length = n ∧ first = encode8 cs := by
  fun_induction distanceFrom dist first with
  | case1 dist =>
    constructor
    · intro h
      exact ⟨[], Except.ok.inj h, rfl⟩
    · rintro ⟨cs, rfl, hcs⟩
      match cs with
      | [] => rfl
      | c :: cs => simp at hcs
  | case2 dist first _ cp it hnext ih =>
    obtain ⟨c, -, rfl⟩ := next_eq_ok.mp hnext
    rw [ih]
    constructor
    · rintro ⟨cs, rfl, rfl⟩
      exact ⟨c :: cs, by simp; omega, by simp⟩
    · rintro ⟨cs, rfl, hcs⟩
      match cs with
      | [] => simp at hcs
      | d :: cs =>
        have hnext' := next_eq_ok.mpr ⟨d, rfl, hcs.trans (encode8_cons d cs)⟩
        obtain ⟨-, rfl⟩ := Prod.mk.inj (Except.ok.inj (hnext.symm.trans hnext'))
        exact ⟨cs, by simp; omega, rfl⟩
  | case3 dist first hne e hnext =>
    constructor
    · intro h
      cases h
    · rintro ⟨cs, rfl, rfl⟩
      obtain ⟨c, cs, rfl⟩ := List.exists_cons_of_ne_nil (show cs ≠ [] by rintro rfl; exact hne rfl)
      cases (next_eq_ok.mpr ⟨c, rfl, encode8_cons c cs⟩).symm.trans hnext

theorem distance_eq_iff {first : List UInt8} {n : ℕ} :
    distance first = .ok n ↔ advance first n = .ok [] := by
  rw [distance, distanceFrom_eq_ok, advance_eq_ok]
  simp

/-- `class iterator`, with the two parts of its range. -/
structure Iterator where
  before : List UInt8
  after : List UInt8

namespace Iterator

/-- `operator*`. -/
def deref (i : Iterator) : Except Exception UInt32 := peekNext i.after

/-- `operator++`. -/
def increment (i : Iterator) : Except Exception Iterator := do
  let (_, it) ← next i.after
  return ⟨(i.after.take (i.after.length - it.length)).reverse ++ i.before, it⟩

/-- `operator--`. -/
def decrement (i : Iterator) : Except Exception Iterator := do
  let (_, it) ← prior i.before
  return ⟨it, (i.before.take (i.before.length - it.length)).reverse ++ i.after⟩

theorem increment_eq_ok {i j : Iterator} :
    i.increment = .ok j ↔ ∃ c : Char, i.after = String.utf8EncodeChar c ++ j.after ∧
      j.before = (String.utf8EncodeChar c).reverse ++ i.before := by
  obtain ⟨before, after⟩ := i
  obtain ⟨before', after'⟩ := j
  rw [increment, bind_eq_ok]
  constructor
  · rintro ⟨⟨cp, it⟩, hnext, hret⟩
    obtain ⟨c, -, hc⟩ := next_eq_ok.mp hnext
    change after = _ at hc
    subst hc
    obtain ⟨rfl, rfl⟩ := Iterator.mk.inj (Except.ok.inj hret)
    exact ⟨c, rfl, by simp⟩
  · rintro ⟨c, hafter, hbefore⟩
    change after = _ ++ after' at hafter
    change before' = _ ++ before at hbefore
    subst hafter hbefore
    refine ⟨(c.val, after'), next_eq_ok.mpr ⟨c, rfl, rfl⟩, ?_⟩
    simp [pure, Except.pure]

theorem decrement_eq_ok {i j : Iterator} :
    i.decrement = .ok j ↔ ∃ (c : Char) (stray : List UInt8), (∀ x ∈ stray, IsTail x) ∧
      i.before = stray ++ (String.utf8EncodeChar c).reverse ++ j.before ∧
      j.after = String.utf8EncodeChar c ++ stray.reverse ++ i.after := by
  obtain ⟨before, after⟩ := i
  obtain ⟨before', after'⟩ := j
  rw [decrement, bind_eq_ok]
  constructor
  · rintro ⟨⟨cp, it⟩, hprior, hret⟩
    obtain ⟨c, -, stray, hstray, hbefore⟩ := prior_eq_ok_iff.mp hprior
    change before = _ at hbefore
    subst hbefore
    obtain ⟨rfl, rfl⟩ := Iterator.mk.inj (Except.ok.inj hret)
    refine ⟨c, stray, hstray, rfl, ?_⟩
    rw [List.length_append, Nat.add_sub_cancel, List.take_left' rfl]
    simp
  · rintro ⟨c, stray, hstray, hbefore, hafter⟩
    change before = _ ++ before' at hbefore
    change after' = _ ++ after at hafter
    subst hbefore hafter
    refine ⟨(c.val, before'), prior_eq_ok_iff.mpr ⟨c, rfl, stray, hstray, rfl⟩, ?_⟩
    change Except.ok (Iterator.mk before' _) = _
    rw [List.length_append, Nat.add_sub_cancel, List.take_left' rfl]
    simp

def increments : ℕ → Iterator → Except Exception Iterator
  | 0, i => .ok i
  | n + 1, i => do
    let i ← i.increment
    increments n i

def decrements : ℕ → Iterator → Except Exception Iterator
  | 0, i => .ok i
  | n + 1, i => do
    let i ← decrements n i
    i.decrement

theorem decrement_increment {i j : Iterator} (h : i.increment = .ok j) : j.decrement = .ok i := by
  obtain ⟨c, hafter, hbefore⟩ := increment_eq_ok.mp h
  exact decrement_eq_ok.mpr ⟨c, [], by simp, by simp [hbefore], by simp [hafter]⟩

/-- Where what is before the iterator is well-formed, `--` takes off its last character. -/
theorem decrement_of_valid {i j : Iterator} (hvalid : isValid i.before.reverse = true)
    (h : i.decrement = .ok j) : isValid j.before.reverse = true ∧ j.increment = .ok i := by
  obtain ⟨c, stray, hstray, hbefore, hafter⟩ := decrement_eq_ok.mp h
  obtain ⟨cs, hcs⟩ := isValid_iff.mp hvalid
  obtain rfl | ⟨cs, d, rfl⟩ := List.eq_nil_or_concat cs
  · rw [hbefore] at hcs
    simp at hcs
  · have hd : i.before = [] ++ (String.utf8EncodeChar d).reverse ++ (encode8 cs).reverse := by
      rw [← List.reverse_reverse i.before, hcs]
      simp
    have hprior := prior_eq_ok_iff.mpr ⟨c, rfl, stray, hstray, hbefore⟩
    have hprior' := prior_eq_ok_iff.mpr ⟨d, rfl, [], by simp, hd⟩
    obtain ⟨hval, hrest⟩ := Prod.mk.inj (Except.ok.inj (hprior.symm.trans hprior'))
    obtain rfl : c = d := Char.ext hval
    have hnil : stray = [] := by
      have hlen := congrArg List.length (hbefore.symm.trans hd)
      simp [hrest] at hlen
      exact hlen
    subst hnil
    refine ⟨isValid_iff.mpr ⟨cs, by rw [hrest, List.reverse_reverse]⟩, ?_⟩
    exact increment_eq_ok.mpr ⟨c, by simpa using hafter, by simpa using hbefore⟩

theorem decrements_of_increments {n : ℕ} {i j : Iterator} (h : increments n i = .ok j) :
    decrements n j = .ok i := by
  induction n generalizing i with
  | zero =>
    cases h
    rfl
  | succ n ih =>
    obtain ⟨k, hk, hrest⟩ := bind_eq_ok.mp h
    exact bind_eq_ok.mpr ⟨k, ih hrest, decrement_increment hk⟩

theorem increments_of_decrements {n : ℕ} {i j : Iterator}
    (hvalid : isValid j.before.reverse = true) (h : decrements n j = .ok i) :
    isValid i.before.reverse = true ∧ increments n i = .ok j := by
  induction n generalizing i with
  | zero =>
    cases h
    exact ⟨hvalid, rfl⟩
  | succ n ih =>
    obtain ⟨k, hrest, hk⟩ := bind_eq_ok.mp h
    obtain ⟨hvalid', hinc⟩ := ih hrest
    obtain ⟨hvalid'', hstep⟩ := decrement_of_valid hvalid' hk
    exact ⟨hvalid'', bind_eq_ok.mpr ⟨k, hstep, hinc⟩⟩

/-- The way back is the way there, read backwards. -/
theorem walks_back {n : ℕ} {i j : Iterator} (hvalid : isValid j.before.reverse = true) :
    increments n i = .ok j ↔ decrements n j = .ok i := by
  constructor
  · exact decrements_of_increments
  · intro h
    exact (increments_of_decrements hvalid h).2

theorem walks_back_two_octets :
    increments 1 ⟨[], [0xc3, 0xa9]⟩ = .ok ⟨[0xa9, 0xc3], []⟩ :=
  (walks_back (isValid_iff.mpr ⟨['é'], rfl⟩)).mpr rfl

end Iterator

end TestCodes.TestUnitsNew.Utf8
