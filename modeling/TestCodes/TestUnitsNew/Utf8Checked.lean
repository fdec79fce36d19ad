import Mathlib.Data.List.TakeWhile
import TestCodes.Lib.Transcode
import TestCodes.TestUnitsNew.Utf8Valid

/-! utf8/checked.h: reading and writing code points with every octet checked. An output iterator
is what has been written through it. -/
namespace TestCodes.TestUnitsNew.Utf8
open Unicode

inductive Exception
  | invalidCodePoint (cp : UInt32)
  | invalidUtf8 (u8 : UInt8)
  | invalidUtf16 (u16 : UInt16)
  | notEnoughRoom
  deriving DecidableEq

def octets (cp : UInt32) : List UInt8 :=
  if cp < 0x80 then [cp.toUInt8]
  else if cp < 0x800 then [((cp >>> 6) ||| 0xc0).toUInt8, ((cp &&& 0x3f) ||| 0x80).toUInt8]
  else if cp < 0x10000 then
    [((cp >>> 12) ||| 0xe0).toUInt8, (((cp >>> 6) &&& 0x3f) ||| 0x80).toUInt8,
      ((cp &&& 0x3f) ||| 0x80).toUInt8]
  else
    [((cp >>> 18) ||| 0xf0).toUInt8, (((cp >>> 12) &&& 0x3f) ||| 0x80).toUInt8,
      (((cp >>> 6) &&& 0x3f) ||| 0x80).toUInt8, ((cp &&& 0x3f) ||| 0x80).toUInt8]

def append (cp : UInt32) (result : List UInt8) : Except Exception (List UInt8) :=
  if !isCodePointValid cp then .error (.invalidCodePoint cp) else .ok (result ++ octets cp)

/-- A failed `validate_next` leaves `cp` as it was. -/
def next (it : List UInt8) : Except Exception (UInt32 × List UInt8) :=
  let cp : UInt32 := 0
  match validateNext it with
  | .ok (cp, it) => .ok (cp, it)
  | .error .notEnoughRoom => .error .notEnoughRoom
  | .error .invalidLead | .error .incompleteSequence | .error .overlongSequence =>
    .error (.invalidUtf8 (deref it))
  | .error .invalidCodePoint => .error (.invalidCodePoint cp)

def peekNext (it : List UInt8) : Except Exception UInt32 := (next it).map Prod.fst

theorem toNat_shiftRight (cp k : UInt32) (hk : k.toNat < 32) :
    (cp >>> k).toNat = cp.toNat / 2 ^ k.toNat := by
  rw [UInt32.toNat_shiftRight, Nat.mod_eq_of_lt hk, Nat.shiftRight_eq_div_pow]

theorem toNat_and_mask (cp m : UInt32) {n : ℕ} (hm : m.toNat = 2 ^ n - 1) :
    (cp &&& m).toNat = cp.toNat % 2 ^ n := by
  rw [UInt32.toNat_and, hm, Nat.and_two_pow_sub_one_eq_mod]

theorem toNat_or_mark {x m : UInt32} {n a : ℕ} (hm : m.toNat = 2 ^ n * a) (hx : x.toNat < 2 ^ n)
    (hlt : 2 ^ n * (a + 1) ≤ 256) : (x ||| m).toUInt8.toNat = m.toNat + x.toNat := by
  have hor : (x ||| m).toNat = m.toNat + x.toNat := by
    rw [UInt32.toNat_or, hm, Nat.or_comm, ← Nat.two_pow_add_eq_or_of_lt hx]
  rw [UInt32.toNat_toUInt8, hor]
  rw [Nat.mul_add, Nat.mul_one, ← hm] at hlt
  exact Nat.mod_eq_of_lt (by omega)

theorem toNat_trail (x : UInt32) :
    ((x &&& 0x3f) ||| 0x80).toUInt8.toNat = 128 + x.toNat % 64 := by
  have hmask := toNat_and_mask x 0x3f (n := 6) rfl
  rw [toNat_or_mark (n := 6) (a := 2) rfl (by omega) (by omega), hmask]
  rfl

theorem octets_char (c : Char) : octets c.val = String.utf8EncodeChar c := by
  have hc := toNat_valid c
  have h6 : (c.val >>> 6).toNat = c.toNat / 64 := toNat_shiftRight c.val 6 (by decide)
  have h12 : (c.val >>> 12).toNat = c.toNat / 4096 := toNat_shiftRight c.val 12 (by decide)
  have h18 : (c.val >>> 18).toNat = c.toNat / 262144 := toNat_shiftRight c.val 18 (by decide)
  have h0 : c.val.toNat = c.toNat := rfl
  symm
  rw [utf8EncodeChar_eq_iff, toNat_utf8EncodeChar]
  simp only [octets, UInt32.lt_iff_toNat_lt, h0]
  change _ = List.map UInt8.toNat (if c.toNat < 0x80 then _ else if c.toNat < 0x800 then _ else
    if c.toNat < 0x10000 then _ else _)
  split_ifs
  · simp only [List.map_cons, List.map_nil, UInt32.toNat_toUInt8, h0]
    rw [Nat.mod_eq_of_lt (by omega)]
  · simp only [List.map_cons, List.map_nil, toNat_trail, h0]
    rw [toNat_or_mark (n := 6) (a := 3) rfl (by omega) (by omega), h6]
    rfl
  · simp only [List.map_cons, List.map_nil, toNat_trail, h0, h6]
    rw [toNat_or_mark (n := 5) (a := 7) rfl (by omega) (by omega), h12]
    rfl
  · simp only [List.map_cons, List.map_nil, toNat_trail, h0, h6, h12]
    rw [toNat_or_mark (n := 4) (a := 15) rfl (by omega) (by omega), h18]
    rfl

theorem append_eq_ok {cp : UInt32} {result out : List UInt8} :
    append cp result = .ok out ↔
      ∃ c : Char, c.val = cp ∧ out = result ++ String.utf8EncodeChar c := by
  unfold append
  constructor
  · intro h
    cases hvalid : isCodePointValid cp with
    | false =>
      rw [hvalid] at h
      cases h
    | true =>
      obtain ⟨c, rfl⟩ := (isCodePointValid_iff_char cp).mp hvalid
      rw [hvalid] at h
      exact ⟨c, rfl, by rw [← octets_char, ← Except.ok.inj h]⟩
  · rintro ⟨c, rfl, rfl⟩
    rw [(isCodePointValid_iff_char c.val).mpr ⟨c, rfl⟩, octets_char]
    rfl

theorem next_eq_ok {it rest : List UInt8} {cp : UInt32} :
    next it = .ok (cp, rest) ↔ ∃ c : Char, c.val = cp ∧ it = String.utf8EncodeChar c ++ rest := by
  rw [← validateNext_eq_ok, next]
  split <;> simp_all

/-- What `next` throws, and when: the code point in `invalid_code_point` is always 0, and all that
is neither cut off nor a sequence for an invalid code point is `invalid_utf8` by its first octet. -/
theorem next_throws (a : UInt8) (t : List UInt8) (e : Exception) :
    next (a :: t) = .error e ↔
      (e = .notEnoughRoom ∧ CutOff (a :: t)) ∨
      (e = .invalidCodePoint 0 ∧ ∃ cp it, getSequence (sequenceLength a) (a :: t) = .ok (cp, it) ∧
        isCodePointValid cp = false) ∨
      (e = .invalidUtf8 a ∧ ¬ CutOff (a :: t) ∧
        (¬ ∃ cp it, getSequence (sequenceLength a) (a :: t) = .ok (cp, it) ∧
          isCodePointValid cp = false) ∧
        ∀ c, ¬ String.utf8EncodeChar c <+: a :: t) := by
  have hstuck : (∀ c, ¬ String.utf8EncodeChar c <+: a :: t) ↔
      ∀ r, validateNext (a :: t) ≠ .ok r := by
    constructor
    · rintro h ⟨cp, rest⟩ hok
      obtain ⟨c, -, heq⟩ := validateNext_eq_ok.mp hok
      exact h c ⟨rest, heq.symm⟩
    · rintro h c ⟨rest, heq⟩
      exact h (c.val, rest) (validateNext_eq_ok.mpr ⟨c, rfl, heq.symm⟩)
  rw [← validateNext_notEnoughRoom, ← validateNext_invalidCodePoint, hstuck, next]
  cases h : validateNext (a :: t) with
  | ok r => simp
  | error err => cases err <;> simp [eq_comm]

theorem next_length {it rest : List UInt8} {cp : UInt32} (h : next it = .ok (cp, rest)) :
    rest.length < it.length := by
  rw [next_eq_ok, ← validateNext_eq_ok] at h
  exact validateNext_length h

def replaceStep (replacement : UInt32) (start out : List UInt8) :
    Except Exception (List UInt8 × List UInt8) :=
  match validateNext start with
  | .ok (_, it) => .ok (it, out ++ start.take (start.length - it.length))
  | .error .notEnoughRoom => .error .notEnoughRoom
  | .error .invalidLead => do
    let out ← append replacement out
    return (start.tail, out)
  | .error .incompleteSequence | .error .overlongSequence | .error .invalidCodePoint => do
    let out ← append replacement out
    -- just one replacement mark for the sequence
    return (start.tail.dropWhile isTrail, out)

theorem replaceStep_eq_ok {replacement : UInt32} {start rest out out' : List UInt8}
    (h : replaceStep replacement start out = .ok (rest, out')) :
    (∃ c : Char, start = String.utf8EncodeChar c ++ rest ∧
      out' = out ++ String.utf8EncodeChar c) ∨
    ∃ c : Char, c.val = replacement ∧ out' = out ++ String.utf8EncodeChar c ∧
      ∃ trails, start.tail = trails ++ rest ∧ ∀ x ∈ trails, IsTail x := by
  unfold replaceStep at h
  split at h
  · rename_i cp it hnext
    obtain ⟨c, -, rfl⟩ := validateNext_eq_ok.mp hnext
    cases h
    refine .inl ⟨c, rfl, ?_⟩
    rw [List.length_append, Nat.add_sub_cancel, List.take_left']
    rfl
  · cases h
  · obtain ⟨_, happend, hret⟩ := bind_eq_ok.mp h
    obtain ⟨c, hc, rfl⟩ := append_eq_ok.mp happend
    cases hret
    exact .inr ⟨c, hc, rfl, [], rfl, by simp⟩
  all_goals
    obtain ⟨_, happend, hret⟩ := bind_eq_ok.mp h
    obtain ⟨c, hc, rfl⟩ := append_eq_ok.mp happend
    cases hret
    refine .inr ⟨c, hc, rfl, _, (List.takeWhile_append_dropWhile).symm, fun x hx => ?_⟩
    exact (isTrail_iff x).mp (List.mem_takeWhile_imp hx)

theorem replaceStep_octets {replacement : UInt32} {start rest out out' : List UInt8}
    (hne : start ≠ []) (h : replaceStep replacement start out = .ok (rest, out')) :
    ∃ b trails, start = b :: trails ++ rest ∧ ∀ x ∈ trails, IsTail x := by
  obtain ⟨c, rfl, -⟩ | ⟨_, -, -, trails, htail, htrails⟩ := replaceStep_eq_ok h
  · obtain ⟨b, bs, heq, -, hbs⟩ := utf8EncodeChar_tails c
    exact ⟨b, bs, by rw [heq], hbs⟩
  · obtain ⟨b, t, rfl⟩ := List.exists_cons_of_ne_nil hne
    exact ⟨b, trails, congrArg (b :: ·) htail, htrails⟩

theorem replaceStep_encodeChar (replacement : UInt32) (c : Char) (rest out : List UInt8) :
    replaceStep replacement (String.utf8EncodeChar c ++ rest) out =
      .ok (rest, out ++ String.utf8EncodeChar c) := by
  rw [replaceStep, validateNext_encodeChar]
  simp

/-- With a character to replace by, a round fails only at a sequence that is cut off. -/
theorem replaceStep_eq_error {c : Char} {start out : List UInt8} {e : Exception}
    (hne : start ≠ []) (h : replaceStep c.val start out = .error e) :
    e = .notEnoughRoom ∧ CutOff start := by
  have happend : append c.val out = _ := append_eq_ok.mpr ⟨c, rfl, rfl⟩
  obtain ⟨b, t, rfl⟩ := List.exists_cons_of_ne_nil hne
  unfold replaceStep at h
  split at h
  · cases h
  · rename_i hnext
    cases h
    exact ⟨rfl, validateNext_notEnoughRoom.mp hnext⟩
  all_goals
    rw [happend] at h
    cases h

theorem replaceStep_cutOff {start : List UInt8} (h : CutOff start) (replacement : UInt32)
    (out : List UInt8) : replaceStep replacement start out = .error .notEnoughRoom := by
  obtain ⟨b, t, rfl⟩ := List.exists_cons_of_ne_nil h.1
  rw [replaceStep, validateNext_notEnoughRoom.mpr h]

def replaceBody (replacement : UInt32) : Body Exception UInt8 UInt8 where
  step := replaceStep replacement
  shorter hne h := by
    obtain ⟨b, trails, rfl, -⟩ := replaceStep_octets hne h
    rw [List.length_append, List.length_cons]
    omega

def replaceInvalid (start out : List UInt8) (replacement : UInt32) :
    List UInt8 × Option Exception :=
  (replaceBody replacement).loop start out

theorem replaceInvalid_encode8 (cs : List Char) (out : List UInt8) (replacement : UInt32) :
    replaceInvalid (encode8 cs) out replacement = (out ++ encode8 cs, none) := by
  induction cs generalizing out with
  | nil => simp [replaceInvalid]
  | cons c cs ih =>
    have hstep := replaceStep_encodeChar replacement c (encode8 cs) out
    rw [encode8_cons, replaceInvalid, Body.loop_of_ok (by simp) hstep,
      ← List.append_assoc]
    exact ih _

theorem replaceInvalid_valid (start out : List UInt8) (c : Char) :
    ∃ cs, (replaceInvalid start out c.val).1 = out ++ encode8 cs := by
  unfold replaceInvalid
  fun_induction (replaceBody c.val).loop start out with
  | case1 out => exact ⟨[], by simp⟩
  | case2 start out hne rest out' hstep ih =>
    obtain ⟨cs, hcs⟩ := ih
    obtain ⟨d, -, rfl⟩ | ⟨d, -, rfl, -⟩ := replaceStep_eq_ok hstep
    all_goals exact ⟨d :: cs, by rw [hcs, encode8_cons, List.append_assoc]⟩
  | case3 start out hne e hstep => exact ⟨[], by simp⟩

theorem not_cutOff_of_isTail {b : UInt8} (hb : IsTail b) (t : List UInt8) : ¬ CutOff (b :: t) := by
  rintro ⟨-, hlen, -⟩
  rw [deref_cons, sequenceLength_eq, if_neg (by have := hb.1; omega), if_pos hb.2] at hlen
  omega

/-- A sequence that is cut off starts neither at a round that returns nor among the octets it
skips. -/
theorem cutOff_suffix_iff {b : UInt8} {trails rest : List UInt8} (htrails : ∀ x ∈ trails, IsTail x)
    (hfirst : ¬ CutOff (b :: trails ++ rest)) :
    (∃ before cut, b :: trails ++ rest = before ++ cut ∧ CutOff cut) ↔
      ∃ before cut, rest = before ++ cut ∧ CutOff cut := by
  constructor
  · rintro ⟨before, cut, heq, hcut⟩
    obtain ⟨more, rfl, rfl⟩ | ⟨more, hskip, rfl⟩ := List.append_eq_append_iff.mp heq
    · exact ⟨more, cut, rfl, hcut⟩
    · match more, before with
      | [], _ => exact ⟨[], rest, rfl, hcut⟩
      | x :: more, [] =>
        rw [List.nil_append] at hskip
        rw [hskip] at hfirst
        exact absurd hcut hfirst
      | x :: more, _ :: before =>
        have hx : x ∈ trails := by
          rw [(List.cons.inj hskip).2]
          simp
        exact absurd hcut (not_cutOff_of_isTail (htrails x hx) _)
  · rintro ⟨before, cut, rfl, hcut⟩
    exact ⟨b :: trails ++ before, cut, by simp, hcut⟩

theorem replaceInvalid_thrown (start out : List UInt8) (c : Char) :
    ((replaceInvalid start out c.val).2 = none ∨
      (replaceInvalid start out c.val).2 = some .notEnoughRoom) ∧
    ((replaceInvalid start out c.val).2 = some .notEnoughRoom ↔
      ∃ before cut, start = before ++ cut ∧ CutOff cut) := by
  unfold replaceInvalid
  fun_induction (replaceBody c.val).loop start out with
  | case1 out =>
    refine ⟨.inl rfl, by simp, ?_⟩
    rintro ⟨before, cut, heq, hcut⟩
    exact absurd (List.append_eq_nil_iff.mp heq.symm).2 hcut.1
  | case2 start out hne rest out' hstep ih =>
    obtain ⟨b, trails, rfl, htrails⟩ := replaceStep_octets hne hstep
    refine ⟨ih.1, ih.2.trans (cutOff_suffix_iff htrails fun hcut => ?_).symm⟩
    cases (replaceStep_cutOff hcut c.val out).symm.trans hstep
  | case3 start out hne e hstep =>
    obtain ⟨rfl, hcut⟩ := replaceStep_eq_error hne hstep
    exact ⟨.inr rfl, by simpa using ⟨[], start, rfl, hcut⟩⟩

/-- What `replace_invalid` writes is well-formed even where it throws, and it changes a text only
where the text is not; it throws only where a sequence is cut off by the end. -/
theorem mends_text (start : List UInt8) (c : Char) :
    isValid (replaceInvalid start [] c.val).1 = true ∧
    (replaceInvalid start [] c.val = (start, none) ↔ isValid start = true) ∧
    ((replaceInvalid start [] c.val).2 = none ∨
      (replaceInvalid start [] c.val).2 = some .notEnoughRoom) ∧
    ((replaceInvalid start [] c.val).2 = some .notEnoughRoom ↔
      ∃ before cut, start = before ++ cut ∧ CutOff cut) := by
  have hvalid : isValid (replaceInvalid start [] c.val).1 = true :=
    isValid_iff.mpr (replaceInvalid_valid start [] c)
  refine ⟨hvalid, ⟨fun h => ?_, fun h => ?_⟩, replaceInvalid_thrown start [] c⟩
  · rwa [h] at hvalid
  · obtain ⟨cs, rfl⟩ := isValid_iff.mp h
    exact replaceInvalid_encode8 cs [] c.val

end TestCodes.TestUnitsNew.Utf8
