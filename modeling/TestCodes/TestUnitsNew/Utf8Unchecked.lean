import TestCodes.TestUnitsNew.Utf8Conversions
import TestCodes.TestUnitsNew.Utf8Iterator

/-! utf8/unchecked.h: the same functions without the checks. Where the checked ones throw these read
on, past the end of the range too, where the octets are of no account: they stand here as zeros.
The source's `utf16to8` compares the iterator with the end for equality only and runs past it behind
a lead surrogate that is cut off; here it stops. -/
namespace TestCodes.TestUnitsNew.Utf8.Unchecked
open Unicode

def append (cp : UInt32) (result : List UInt8) : List UInt8 := result ++ octets cp

def next (it : List UInt8) : UInt32 × List UInt8 :=
  let cp := (mask8 (deref it)).toUInt32
  match sequenceLength (deref it) with
  | 2 =>
    let it := it.tail
    (((cp <<< (6 : UInt32)) &&& 0x7ff) + ((deref it).toUInt32 &&& 0x3f), it.tail)
  | 3 =>
    let it := it.tail
    let cp := ((cp <<< (12 : UInt32)) &&& 0xffff) +
      (((mask8 (deref it)).toUInt32 <<< (6 : UInt32)) &&& 0xfff)
    let it := it.tail
    (cp + ((deref it).toUInt32 &&& 0x3f), it.tail)
  | 4 =>
    let it := it.tail
    let cp := ((cp <<< (18 : UInt32)) &&& 0x1fffff) +
      (((mask8 (deref it)).toUInt32 <<< (12 : UInt32)) &&& 0x3ffff)
    let it := it.tail
    let cp := cp + (((mask8 (deref it)).toUInt32 <<< (6 : UInt32)) &&& 0xfff)
    let it := it.tail
    (cp + ((deref it).toUInt32 &&& 0x3f), it.tail)
  | _ => (cp, it.tail)

/-- `operator++` of the iterator: an octet that leads no sequence holds it where it is. -/
def increment (it : List UInt8) : List UInt8 := it.drop (sequenceLength (deref it))

/-- `while (is_trail(*(--it)))`, with nothing to stop it at the start of the range. -/
def goBack : List UInt8 → List UInt8 → List UInt8 × List UInt8
  | [], passed => ([], passed)
  | oc :: before, passed =>
    if isTrail oc then goBack before (oc :: passed) else (before, oc :: passed)

def prior (before after : List UInt8) : UInt32 × List UInt8 :=
  let (before, temp) := goBack before after
  ((next temp).1, before)

def advance : List UInt8 → ℕ → List UInt8
  | it, 0 => it
  | it, n + 1 => advance (next it).2 n

theorem next_length {it : List UInt8} (hne : it ≠ []) : (next it).2.length < it.length := by
  obtain ⟨a, t, rfl⟩ := List.exists_cons_of_ne_nil hne
  unfold next
  split <;> simp <;> omega

def distanceFrom (dist : ℕ) (first : List UInt8) : ℕ :=
  if _hne : first = [] then dist else distanceFrom (dist + 1) (next first).2
termination_by first.length
decreasing_by exact next_length _hne

def distance (first : List UInt8) : ℕ := distanceFrom 0 first

/-! The loops. -/

def utf8to32Body : Body Empty UInt8 UInt32 where
  step start result := .ok ((next start).2, result ++ [(next start).1])
  shorter hne h := by
    cases h
    exact next_length hne

def utf8to32 (start : List UInt8) (result : List UInt32) : List UInt32 :=
  (utf8to32Body.loop start result).1

def utf32to8Body : Body Empty UInt32 UInt8 where
  step start result := .ok (start.tail, append (start.headD 0) result)
  shorter hne h := by
    cases h
    exact tail_shorter hne

def utf32to8 (start : List UInt32) (result : List UInt8) : List UInt8 :=
  (utf32to8Body.loop start result).1

def utf8to16Body : Body Empty UInt8 UInt16 where
  step start result := .ok ((next start).2, result ++ words (next start).1)
  shorter hne h := by
    cases h
    exact next_length hne

def utf8to16 (start : List UInt8) (result : List UInt16) : List UInt16 :=
  (utf8to16Body.loop start result).1

def codePoint16 (start : List UInt16) : UInt32 × List UInt16 :=
  let cp := (mask16 (start.headD 0)).toUInt32
  let start := start.tail
  -- Take care of surrogate pairs first
  if isLeadSurrogate cp then
    let trailSurrogate := (mask16 (start.headD 0)).toUInt32
    ((cp <<< (10 : UInt32)) + trailSurrogate + SURROGATE_OFFSET, start.tail)
  else (cp, start)

def utf16to8Body : Body Empty UInt16 UInt8 where
  step start result := .ok ((codePoint16 start).2, append (codePoint16 start).1 result)
  shorter hne h := by
    cases h
    have hpos := List.length_pos_iff.mpr hne
    simp only [codePoint16]
    split_ifs <;> simp only [List.length_tail] <;> omega

def utf16to8 (start : List UInt16) (result : List UInt8) : List UInt8 :=
  (utf16to8Body.loop start result).1

theorem next_encodeChar (c : Char) (rest : List UInt8) :
    next (String.utf8EncodeChar c ++ rest) = (c.val, rest) := by
  obtain ⟨-, a, h⟩ | ⟨-, -, a, b, h⟩ | ⟨-, -, a, b, d, h⟩ | ⟨-, a, b, d, e, h⟩ :=
    utf8EncodeChar_cases c
  all_goals rw [h]
  · obtain ⟨hlen, hval⟩ := utf8EncodeChar_one.mp h
    simp [next, hlen, hval]
  · obtain ⟨hlen, -, hval, -⟩ := utf8EncodeChar_two.mp h
    simp [next, hlen, hval, value2]
  · obtain ⟨hlen, -, -, hval, -⟩ := utf8EncodeChar_three.mp h
    simp [next, hlen, hval, value3]
  · obtain ⟨hlen, -, -, -, hval, -⟩ := utf8EncodeChar_four.mp h
    simp [next, hlen, hval, value4]

theorem next_agrees {it rest : List UInt8} {cp : UInt32} (h : Utf8.next it = .ok (cp, rest)) :
    next it = (cp, rest) := by
  obtain ⟨c, rfl, rfl⟩ := next_eq_ok.mp h
  exact next_encodeChar c rest

theorem append_agrees {cp : UInt32} {result out : List UInt8}
    (h : Utf8.append cp result = .ok out) : append cp result = out := by
  obtain ⟨c, rfl, rfl⟩ := append_eq_ok.mp h
  rw [append, octets_char]

theorem codePoint16_agrees {start rest : List UInt16} {cp : UInt32}
    (h : Utf8.codePoint16 start = .ok (cp, rest)) : codePoint16 start = (cp, rest) := by
  simp only [Utf8.codePoint16] at h
  simp only [codePoint16]
  split_ifs at h ⊢
  · exact Except.ok.inj h
  · exact Except.ok.inj h

theorem increment_agrees {it rest : List UInt8} {cp : UInt32} (h : Utf8.next it = .ok (cp, rest)) :
    increment it = rest := by
  obtain ⟨c, -, rfl⟩ := next_eq_ok.mp h
  obtain ⟨-, a, h⟩ | ⟨-, -, a, b, h⟩ | ⟨-, -, a, b, d, h⟩ | ⟨-, a, b, d, e, h⟩ :=
    utf8EncodeChar_cases c
  all_goals rw [h]
  · simp [increment, (utf8EncodeChar_one.mp h).1]
  · simp [increment, (utf8EncodeChar_two.mp h).1]
  · simp [increment, (utf8EncodeChar_three.mp h).1]
  · simp [increment, (utf8EncodeChar_four.mp h).1]

theorem goBack_agrees {before before' passed passed' : List UInt8} (hne : before ≠ [])
    (h : Utf8.goBack before passed = .ok (before', passed')) (after : List UInt8) :
    goBack before (passed ++ after) = (before', passed' ++ after) := by
  induction before generalizing passed with
  | nil => exact absurd rfl hne
  | cons oc before ih =>
    rw [Utf8.goBack] at h
    rw [goBack]
    split_ifs at h ⊢ with htrail hnil
    · exact ih hnil h
    · obtain ⟨rfl, rfl⟩ := Prod.mk.inj (Except.ok.inj h)
      rfl

theorem prior_agrees {before before' : List UInt8} {cp : UInt32}
    (h : Utf8.prior before = .ok (cp, before')) (after : List UInt8) :
    prior before after = (cp, before') := by
  by_cases hne : before = []
  · subst hne
    cases h
  · rw [Utf8.prior, if_neg hne] at h
    obtain ⟨⟨back, passed⟩, hback, h⟩ := bind_eq_ok.mp h
    obtain ⟨_, hpeek, hret⟩ := bind_eq_ok.mp h
    cases hret
    obtain ⟨c, rfl, rest, rfl⟩ := peekNext_eq_ok.mp hpeek
    have hback' := goBack_agrees hne hback after
    rw [List.nil_append, List.append_assoc] at hback'
    simp only [prior, hback', next_encodeChar]

theorem advance_agrees {it rest : List UInt8} {n : ℕ} (h : Utf8.advance it n = .ok rest) :
    advance it n = rest := by
  induction n generalizing it with
  | zero => exact Except.ok.inj h
  | succ n ih =>
    obtain ⟨⟨cp, it'⟩, hnext, hrest⟩ := bind_eq_ok.mp h
    rw [advance, next_agrees hnext]
    exact ih hrest

theorem distance_agrees {first : List UInt8} {dist n : ℕ}
    (h : Utf8.distanceFrom dist first = .ok n) : distanceFrom dist first = n := by
  fun_induction Utf8.distanceFrom dist first with
  | case1 dist =>
    rw [distanceFrom, dif_pos rfl]
    exact Except.ok.inj h
  | case2 dist first hne cp it hnext ih =>
    rw [distanceFrom, dif_neg hne, next_agrees hnext]
    exact ih h
  | case3 dist first hne e hnext => cases h

theorem utf8to32_agrees {xs : List UInt8} {result out : List UInt32}
    (h : Utf8.utf8to32 xs result = (out, none)) : utf8to32 xs result = out := by
  have hloop : utf8to32Body.loop xs result = (out, none) := by
    refine Body.loop_agrees (fun _ h => ?_) h
    obtain ⟨⟨cp, it⟩, hnext, hret⟩ := bind_eq_ok.mp h
    cases hret
    simp only [utf8to32Body, next_agrees hnext]
  exact congrArg Prod.fst hloop

theorem utf32to8_agrees {cps : List UInt32} {result out : List UInt8}
    (h : Utf8.utf32to8 cps result = (out, none)) : utf32to8 cps result = out := by
  have hloop : utf32to8Body.loop cps result = (out, none) := by
    refine Body.loop_agrees (fun _ h => ?_) h
    obtain ⟨_, happend, hret⟩ := bind_eq_ok.mp h
    cases hret
    simp only [utf32to8Body, append_agrees happend]
  exact congrArg Prod.fst hloop

theorem utf8to16_agrees {xs : List UInt8} {result out : List UInt16}
    (h : Utf8.utf8to16 xs result = (out, none)) : utf8to16 xs result = out := by
  have hloop : utf8to16Body.loop xs result = (out, none) := by
    refine Body.loop_agrees (fun _ h => ?_) h
    obtain ⟨⟨cp, it⟩, hnext, hret⟩ := bind_eq_ok.mp h
    cases hret
    simp only [utf8to16Body, next_agrees hnext]
  exact congrArg Prod.fst hloop

theorem utf16to8_agrees {ws : List UInt16} {result out : List UInt8}
    (h : Utf8.utf16to8 ws result = (out, none)) : utf16to8 ws result = out := by
  have hloop : utf16to8Body.loop ws result = (out, none) := by
    refine Body.loop_agrees (fun _ h => ?_) h
    obtain ⟨⟨cp, it⟩, hread, h⟩ := bind_eq_ok.mp h
    obtain ⟨_, happend, hret⟩ := bind_eq_ok.mp h
    cases hret
    simp only [utf16to8Body, codePoint16_agrees hread, append_agrees happend]
  exact congrArg Prod.fst hloop

/-- Wherever a checked function returns, the unchecked one returns the same. -/
theorem agrees_where_checked :
    (∀ xs result out, Utf8.utf8to32 xs result = (out, none) → utf8to32 xs result = out) ∧
    (∀ cps result out, Utf8.utf32to8 cps result = (out, none) → utf32to8 cps result = out) ∧
    (∀ xs result out, Utf8.utf8to16 xs result = (out, none) → utf8to16 xs result = out) ∧
    (∀ ws result out, Utf8.utf16to8 ws result = (out, none) → utf16to8 ws result = out) ∧
    (∀ it cp rest, Utf8.next it = .ok (cp, rest) → next it = (cp, rest) ∧ increment it = rest) ∧
    (∀ it n rest, Utf8.advance it n = .ok rest → advance it n = rest) ∧
    (∀ first n, Utf8.distance first = .ok n → distance first = n) ∧
    ∀ before cp before', Utf8.prior before = .ok (cp, before') →
      ∀ after, prior before after = (cp, before') :=
  ⟨fun _ _ _ => utf8to32_agrees, fun _ _ _ => utf32to8_agrees, fun _ _ _ => utf8to16_agrees,
    fun _ _ _ => utf16to8_agrees, fun _ _ _ h => ⟨next_agrees h, increment_agrees h⟩,
    fun _ _ _ => advance_agrees, fun _ _ => distance_agrees,
    fun _ _ _ => prior_agrees⟩

end TestCodes.TestUnitsNew.Utf8.Unchecked
