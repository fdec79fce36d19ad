import TestCodes.TestUnitsNew.Utf8Core

/-! utf8/core.h, the library API: how far a range of octets is well-formed. -/
namespace TestCodes.TestUnitsNew.Utf8
open Unicode

theorem validateNext_length {it rest : List UInt8} {cp : UInt32}
    (h : validateNext it = .ok (cp, rest)) : rest.length < it.length := by
  obtain ⟨c, -, rfl⟩ := validateNext_eq_ok.mp h
  have hpos := List.length_pos_iff.mpr (String.utf8EncodeChar_ne_nil (c := c))
  rw [List.length_append]
  omega

def findInvalid (start : List UInt8) : List UInt8 :=
  if start = [] then start
  else match _h : validateNext start with
    | .ok (_, it) => findInvalid it
    | .error _ => start
termination_by start.length
decreasing_by exact validateNext_length _h

def isValid (start : List UInt8) : Bool := findInvalid start = []

theorem findInvalid_of_ok {it rest : List UInt8} {cp : UInt32}
    (h : validateNext it = .ok (cp, rest)) : findInvalid it = findInvalid rest := by
  rw [findInvalid]
  split_ifs with hnil
  · subst hnil
    cases h
  · split
    · simp_all
    · simp_all

@[simp] theorem findInvalid_nil : findInvalid [] = [] := by rw [findInvalid, if_pos rfl]

theorem findInvalid_encode8 (cs : List Char) (rest : List UInt8) :
    findInvalid (encode8 cs ++ rest) = findInvalid rest := by
  induction cs with
  | nil => rfl
  | cons c cs ih =>
    rw [encode8_cons, List.append_assoc, findInvalid_of_ok (validateNext_encodeChar c _), ih]

theorem findInvalid_split (start : List UInt8) : ∃ cs, start = encode8 cs ++ findInvalid start := by
  fun_induction findInvalid start with
  | case1 => exact ⟨[], rfl⟩
  | case2 start _ cp it h ih =>
    obtain ⟨c, -, rfl⟩ := validateNext_eq_ok.mp h
    obtain ⟨cs, hcs⟩ := ih
    refine ⟨c :: cs, ?_⟩
    rw [encode8_cons, List.append_assoc, ← hcs]
  | case3 start => exact ⟨[], rfl⟩

theorem findInvalid_stuck (start : List UInt8) (c : Char) :
    ¬ String.utf8EncodeChar c <+: findInvalid start := by
  fun_induction findInvalid start with
  | case1 =>
    rw [List.prefix_nil]
    exact String.utf8EncodeChar_ne_nil
  | case2 _ _ _ _ _ ih => exact ih
  | case3 start _ e h =>
    rintro ⟨rest, rfl⟩
    rw [validateNext_encodeChar] at h
    cases h

theorem findInvalid_of_stuck {start : List UInt8}
    (h : ∀ c, ¬ String.utf8EncodeChar c <+: start) : findInvalid start = start := by
  obtain ⟨cs, hcs⟩ := findInvalid_split start
  match cs with
  | [] => exact hcs.symm
  | c :: cs =>
    rw [encode8_cons, List.append_assoc] at hcs
    exact absurd ⟨_, hcs.symm⟩ (h c)

theorem isValid_iff {start : List UInt8} : isValid start = true ↔ ∃ cs, start = encode8 cs := by
  rw [isValid, decide_eq_true_iff]
  constructor
  · intro h
    obtain ⟨cs, hcs⟩ := findInvalid_split start
    exact ⟨cs, by rw [hcs, h, List.append_nil]⟩
  · rintro ⟨cs, rfl⟩
    simpa using findInvalid_encode8 cs []

/-- `find_invalid` stops where the well-formed part of the range ends: what is before the place
is the text of some characters, and no character's octets stand at the place. -/
theorem findInvalid_eq_iff {start rest : List UInt8} :
    (findInvalid start = rest ↔
      (∃ cs, start = encode8 cs ++ rest) ∧ ∀ c, ¬ String.utf8EncodeChar c <+: rest) ∧
    (isValid start = true ↔ start.toByteArray.IsValidUTF8) := by
  refine ⟨⟨?_, ?_⟩, by rw [isValid_iff, isValidUTF8_iff]⟩
  · rintro rfl
    exact ⟨findInvalid_split start, findInvalid_stuck start⟩
  · rintro ⟨⟨cs, rfl⟩, hstuck⟩
    rw [findInvalid_encode8, findInvalid_of_stuck hstuck]

section Errors

/-- The octets from a lead octet on that announces more of them than there are. -/
def CutOff (it : List UInt8) : Prop :=
  it ≠ [] ∧ it.length < sequenceLength (deref it) ∧ ∀ oc ∈ it.tail, IsTail oc

theorem increaseSafely_bind {γ : Type} {a : UInt8} {it : List UInt8}
    {f : List UInt8 → Except UtfError γ} :
    increaseSafely (a :: it) >>= f = .error .notEnoughRoom ↔
      it = [] ∨ ∃ b rest, it = b :: rest ∧ IsTail b ∧ f it = .error .notEnoughRoom := by
  match it with
  | [] => simp [increaseSafely_one, bind, Except.bind]
  | b :: rest =>
    by_cases hb : IsTail b
    · simp [increaseSafely_cons, isTrail_iff, hb, bind, Except.bind]
    · simp [increaseSafely_cons, isTrail_iff, hb, bind, Except.bind]

theorem getSequence_notEnoughRoom {a : UInt8} {it : List UInt8} {length : ℕ} :
    getSequence length (a :: it) = .error .notEnoughRoom ↔
      length ≤ 4 ∧ it.length + 1 < length ∧ ∀ x ∈ it, IsTail x := by
  match length with
  | 0 | n + 5 => simp [getSequence]
  | 1 => simp [getSequence, getSequence1_cons]
  | 2 =>
    rw [getSequence, getSequence2_cons, increaseSafely_bind]
    rcases it with _ | ⟨b, rest⟩
    · simp
    · have enough : ¬ rest.length + 1 + 1 < 2 := by omega
      simp [pure, Except.pure, enough]
  | 3 =>
    rw [getSequence, getSequence3_cons, increaseSafely_bind]
    rcases it with _ | ⟨b, _ | ⟨c, rest⟩⟩
    · simp
    · simp [increaseSafely_one, Functor.map, Except.map]
    · have enough : ¬ rest.length + 1 + 1 + 1 < 3 := by omega
      simp [increaseSafely_bind, pure, Except.pure, enough]
  | 4 =>
    rw [getSequence, getSequence4_cons, increaseSafely_bind]
    rcases it with _ | ⟨b, _ | ⟨c, _ | ⟨d, rest⟩⟩⟩
    · simp
    · simp [increaseSafely_bind]
    · simp [increaseSafely_bind, increaseSafely_one, Functor.map, Except.map]
    · have enough : ¬ rest.length + 1 + 1 + 1 + 1 < 4 := by omega
      simp [increaseSafely_bind, pure, Except.pure, enough]

theorem validateNext_notEnoughRoom {a : UInt8} {t : List UInt8} :
    validateNext (a :: t) = .error .notEnoughRoom ↔ CutOff (a :: t) := by
  have hle : sequenceLength a ≤ 4 := by
    rw [sequenceLength_eq]
    split_ifs <;> omega
  have hseq : validateNext (a :: t) = .error .notEnoughRoom ↔
      getSequence (sequenceLength a) (a :: t) = .error .notEnoughRoom := by
    simp only [validateNext, bind_eq_error, deref_cons]
    constructor
    · rintro (h | ⟨⟨cp, it⟩, -, h⟩)
      · exact h
      · cases hvalid : isCodePointValid cp <;>
          cases hlong : isOverlongSequence cp (sequenceLength a) <;>
            simp only [hvalid, hlong] at h <;> cases h
    · exact .inl
  rw [hseq, getSequence_notEnoughRoom, CutOff]
  simp [hle]

theorem increaseSafely_error {it : List UInt8} {e : UtfError} (h : increaseSafely it = .error e) :
    e ≠ .invalidCodePoint := by
  unfold increaseSafely at h
  split_ifs at h <;> cases h <;> simp

theorem getSequence_error {a : UInt8} {it : List UInt8} {length : ℕ} {e : UtfError}
    (h : getSequence length (a :: it) = .error e) : e ≠ .invalidCodePoint := by
  match length with
  | 0 | n + 5 =>
    cases h
    simp
  | 1 =>
    rw [getSequence, getSequence1_cons] at h
    cases h
  | 2 =>
    rw [getSequence, getSequence2_cons] at h
    obtain h | ⟨_, -, h⟩ := bind_eq_error.mp h
    · exact increaseSafely_error h
    · cases h
  | 3 =>
    rw [getSequence, getSequence3_cons] at h
    obtain h | ⟨_, -, h⟩ := bind_eq_error.mp h
    · exact increaseSafely_error h
    obtain h | ⟨_, -, h⟩ := bind_eq_error.mp h
    · exact increaseSafely_error h
    · cases h
  | 4 =>
    rw [getSequence, getSequence4_cons] at h
    obtain h | ⟨_, -, h⟩ := bind_eq_error.mp h
    · exact increaseSafely_error h
    obtain h | ⟨_, -, h⟩ := bind_eq_error.mp h
    · exact increaseSafely_error h
    obtain h | ⟨_, -, h⟩ := bind_eq_error.mp h
    · exact increaseSafely_error h
    · cases h

theorem validateNext_invalidCodePoint {a : UInt8} {t : List UInt8} :
    validateNext (a :: t) = .error .invalidCodePoint ↔
      ∃ cp it, getSequence (sequenceLength a) (a :: t) = .ok (cp, it) ∧
        isCodePointValid cp = false := by
  simp only [validateNext, bind_eq_error, deref_cons]
  constructor
  · rintro (h | ⟨⟨cp, it⟩, hseq, h⟩)
    · exact absurd rfl (getSequence_error h)
    · cases hvalid : isCodePointValid cp with
      | false => exact ⟨cp, it, hseq, hvalid⟩
      | true =>
        cases hlong : isOverlongSequence cp (sequenceLength a) <;>
          simp only [hvalid, hlong] at h <;> cases h
  · rintro ⟨cp, it, hseq, hvalid⟩
    refine .inr ⟨(cp, it), hseq, ?_⟩
    simp only [hvalid]
    rfl

end Errors

end TestCodes.TestUnitsNew.Utf8
