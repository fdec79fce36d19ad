import TestCodes.Lib.Unicode

/-! utf8/core.h: the sequences of octets that stand for a code point. An iterator is what it has
before it up to the end of the range. -/
namespace TestCodes.TestUnitsNew.Utf8
open Unicode

def LEAD_SURROGATE_MIN : UInt32 := 0xd800
def LEAD_SURROGATE_MAX : UInt32 := 0xdbff
def TRAIL_SURROGATE_MIN : UInt32 := 0xdc00
def TRAIL_SURROGATE_MAX : UInt32 := 0xdfff
def LEAD_OFFSET : UInt32 := LEAD_SURROGATE_MIN - ((0x10000 : UInt32) >>> 10)
def SURROGATE_OFFSET : UInt32 :=
  0x10000 - (LEAD_SURROGATE_MIN <<< (10 : UInt32)) - TRAIL_SURROGATE_MIN
def CODE_POINT_MAX : UInt32 := 0x0010ffff

def mask8 (oc : UInt8) : UInt8 := 0xff &&& oc

@[simp] theorem mask8_eq (oc : UInt8) : mask8 oc = oc := by
  have hoc := oc.toNat_lt
  apply UInt8.toNat.inj
  rw [mask8, UInt8.toNat_and, Nat.and_comm]
  exact Nat.and_two_pow_sub_one_of_lt_two_pow hoc

theorem shiftRight_beq (oc k n : UInt8) (hk : k.toNat < 8) :
    (oc >>> k == n) = decide (oc.toNat / 2 ^ k.toNat = n.toNat) := by
  rw [Bool.eq_iff_iff, beq_iff_eq, decide_eq_true_iff, ← UInt8.toNat_inj, UInt8.toNat_shiftRight,
    Nat.mod_eq_of_lt hk, Nat.shiftRight_eq_div_pow]

def mask16 (oc : UInt16) : UInt16 := 0xffff &&& oc

@[simp] theorem mask16_eq (oc : UInt16) : mask16 oc = oc := by
  have hoc := oc.toNat_lt
  apply UInt16.toNat.inj
  rw [mask16, UInt16.toNat_and, Nat.and_comm]
  exact Nat.and_two_pow_sub_one_of_lt_two_pow hoc

def isTrail (oc : UInt8) : Bool := mask8 oc >>> 6 == 0x2

theorem isTrail_iff (oc : UInt8) : isTrail oc = true ↔ IsTail oc := by
  rw [isTrail, mask8_eq, shiftRight_beq _ _ _ (by decide), decide_eq_true_iff]
  unfold IsTail
  change oc.toNat / 64 = 2 ↔ _
  omega

def isLeadSurrogate (cp : UInt32) : Bool := LEAD_SURROGATE_MIN ≤ cp && cp ≤ LEAD_SURROGATE_MAX

def isTrailSurrogate (cp : UInt32) : Bool := TRAIL_SURROGATE_MIN ≤ cp && cp ≤ TRAIL_SURROGATE_MAX

def isSurrogate (cp : UInt32) : Bool := LEAD_SURROGATE_MIN ≤ cp && cp ≤ TRAIL_SURROGATE_MAX

def isCodePointValid (cp : UInt32) : Bool := cp ≤ CODE_POINT_MAX && !isSurrogate cp

theorem isCodePointValid_iff (cp : UInt32) :
    isCodePointValid cp = true ↔ cp.toNat < 0xd800 ∨ 0xdfff < cp.toNat ∧ cp.toNat < 0x110000 := by
  simp only [isCodePointValid, isSurrogate, CODE_POINT_MAX, LEAD_SURROGATE_MIN,
    TRAIL_SURROGATE_MAX, Bool.and_eq_true, Bool.not_eq_true', Bool.and_eq_false_iff,
    decide_eq_true_iff, decide_eq_false_iff_not, UInt32.le_iff_toNat_le]
  change cp.toNat ≤ 1114111 ∧ (¬ 55296 ≤ cp.toNat ∨ ¬ cp.toNat ≤ 57343) ↔ _
  omega

theorem isCodePointValid_iff_char (cp : UInt32) :
    isCodePointValid cp = true ↔ ∃ c : Char, c.val = cp := by
  rw [isCodePointValid_iff]
  constructor
  · intro h
    obtain ⟨c, hc⟩ := exists_char h
    exact ⟨c, UInt32.toNat.inj hc⟩
  · rintro ⟨c, rfl⟩
    exact toNat_valid c

def sequenceLength (oc : UInt8) : ℕ :=
  let lead := mask8 oc
  if lead < 0x80 then 1
  else if lead >>> 5 == 0x6 then 2
  else if lead >>> 4 == 0xe then 3
  else if lead >>> 3 == 0x1e then 4
  else 0

theorem sequenceLength_eq (oc : UInt8) :
    sequenceLength oc =
      if oc.toNat < 128 then 1 else if oc.toNat < 192 then 0 else if oc.toNat < 224 then 2
      else if oc.toNat < 240 then 3 else if oc.toNat < 248 then 4 else 0 := by
  have hoc := oc.toNat_lt
  simp only [sequenceLength, mask8_eq, shiftRight_beq _ 5 _ (by decide),
    shiftRight_beq _ 4 _ (by decide), shiftRight_beq _ 3 _ (by decide), UInt8.lt_iff_toNat_lt,
    decide_eq_true_eq]
  change (if oc.toNat < 128 then 1 else if oc.toNat / 32 = 6 then 2 else if oc.toNat / 16 = 14 then
    3 else if oc.toNat / 8 = 30 then 4 else 0) = _
  split_ifs <;> omega

def isOverlongSequence (cp : UInt32) (length : ℕ) : Bool :=
  if cp < 0x80 then length ≠ 1
  else if cp < 0x800 then length ≠ 2
  else if cp < 0x10000 then length ≠ 3
  else false

theorem isOverlongSequence_char {c : Char} {length : ℕ} :
    isOverlongSequence c.val length = false ↔
      (c.toNat < 0x80 → length = 1) ∧ (0x80 ≤ c.toNat → c.toNat < 0x800 → length = 2) ∧
        (0x800 ≤ c.toNat → c.toNat < 0x10000 → length = 3) := by
  change (if c.toNat < 0x80 then decide (length ≠ 1) else if c.toNat < 0x800 then
    decide (length ≠ 2) else if c.toNat < 0x10000 then decide (length ≠ 3) else false) = false ↔ _
  split_ifs <;> simp <;> omega

/-- `utf_error`, but for `UTF8_OK`. -/
inductive UtfError
  | notEnoughRoom
  | invalidLead
  | incompleteSequence
  | overlongSequence
  | invalidCodePoint
  deriving DecidableEq

/-- `*it`; at the end of the range, where no loop reads it, it is the octet behind the range. -/
def deref (it : List UInt8) : UInt8 := it.headD 0

@[simp] theorem deref_cons (a : UInt8) (it : List UInt8) : deref (a :: it) = a := rfl

def increaseSafely (it : List UInt8) : Except UtfError (List UInt8) :=
  if it.tail = [] then .error .notEnoughRoom
  else if !isTrail (deref it.tail) then .error .incompleteSequence
  else .ok it.tail

theorem increaseSafely_one (a : UInt8) : increaseSafely [a] = .error .notEnoughRoom := rfl

theorem increaseSafely_cons (a b : UInt8) (rest : List UInt8) :
    increaseSafely (a :: b :: rest) =
      if isTrail b then .ok (b :: rest) else .error .incompleteSequence := by
  cases hb : isTrail b <;> simp [increaseSafely, deref, hb]

theorem increaseSafely_eq_ok {a : UInt8} {it it' : List UInt8} :
    increaseSafely (a :: it) = .ok it' ↔ ∃ b rest, it = b :: rest ∧ IsTail b ∧ it' = it := by
  match it with
  | [] => simp [increaseSafely_one]
  | b :: rest =>
    rw [increaseSafely_cons]
    constructor
    · intro h
      split_ifs at h with hb
      exact ⟨b, rest, rfl, (isTrail_iff b).mp hb, (Except.ok.inj h).symm⟩
    · rintro ⟨_, _, heq, hb, rfl⟩
      obtain ⟨rfl, rfl⟩ := List.cons.inj heq
      rw [if_pos ((isTrail_iff b).mpr hb)]

/-! `get_sequence_x` leaves the iterator at the last octet of the sequence. -/

def getSequence1 (it : List UInt8) : Except UtfError (UInt32 × List UInt8) :=
  if it = [] then .error .notEnoughRoom
  else .ok ((mask8 (deref it)).toUInt32, it)

def getSequence2 (it : List UInt8) : Except UtfError (UInt32 × List UInt8) := do
  if it = [] then throw .notEnoughRoom
  let codePoint := (mask8 (deref it)).toUInt32
  let it ← increaseSafely it
  return (((codePoint <<< (6 : UInt32)) &&& 0x7ff) + ((deref it).toUInt32 &&& 0x3f), it)

def getSequence3 (it : List UInt8) : Except UtfError (UInt32 × List UInt8) := do
  if it = [] then throw .notEnoughRoom
  let codePoint := (mask8 (deref it)).toUInt32
  let it ← increaseSafely it
  let codePoint := ((codePoint <<< (12 : UInt32)) &&& 0xffff) +
    (((mask8 (deref it)).toUInt32 <<< (6 : UInt32)) &&& 0xfff)
  let it ← increaseSafely it
  return (codePoint + ((deref it).toUInt32 &&& 0x3f), it)

def getSequence4 (it : List UInt8) : Except UtfError (UInt32 × List UInt8) := do
  if it = [] then throw .notEnoughRoom
  let codePoint := (mask8 (deref it)).toUInt32
  let it ← increaseSafely it
  let codePoint := ((codePoint <<< (18 : UInt32)) &&& 0x1fffff) +
    (((mask8 (deref it)).toUInt32 <<< (12 : UInt32)) &&& 0x3ffff)
  let it ← increaseSafely it
  let codePoint := codePoint + (((mask8 (deref it)).toUInt32 <<< (6 : UInt32)) &&& 0xfff)
  let it ← increaseSafely it
  return (codePoint + ((deref it).toUInt32 &&& 0x3f), it)

section Sequences

theorem toNat_shiftLeft_and (x k m : UInt32) {n : ℕ} (hk : k.toNat < 32) (hn : n ≤ 32)
    (hm : m.toNat = 2 ^ n - 1) : ((x <<< k) &&& m).toNat = x.toNat * 2 ^ k.toNat % 2 ^ n := by
  rw [UInt32.toNat_and, hm, Nat.and_two_pow_sub_one_eq_mod, UInt32.toNat_shiftLeft,
    Nat.mod_eq_of_lt hk, Nat.shiftLeft_eq, Nat.mod_mod_of_dvd _ (Nat.pow_dvd_pow 2 hn)]

theorem toNat_and_3f (oc : UInt8) : (oc.toUInt32 &&& 0x3f).toNat = oc.toNat % 64 := by
  rw [UInt32.toNat_and, UInt8.toNat_toUInt32]
  exact Nat.and_two_pow_sub_one_eq_mod oc.toNat 6

/-! The code points that `get_sequence_x` makes of its octets. -/

def value2 (a b : UInt8) : UInt32 :=
  ((a.toUInt32 <<< (6 : UInt32)) &&& 0x7ff) + (b.toUInt32 &&& 0x3f)

def value3 (a b c : UInt8) : UInt32 :=
  ((a.toUInt32 <<< (12 : UInt32)) &&& 0xffff) + ((b.toUInt32 <<< (6 : UInt32)) &&& 0xfff) +
    (c.toUInt32 &&& 0x3f)

def value4 (a b c d : UInt8) : UInt32 :=
  ((a.toUInt32 <<< (18 : UInt32)) &&& 0x1fffff) + ((b.toUInt32 <<< (12 : UInt32)) &&& 0x3ffff) +
    ((c.toUInt32 <<< (6 : UInt32)) &&& 0xfff) + (d.toUInt32 &&& 0x3f)

theorem toNat_value2 (a b : UInt8) :
    (value2 a b).toNat = a.toNat * 64 % 2048 + b.toNat % 64 := by
  rw [value2, UInt32.toNat_add, toNat_and_3f,
    toNat_shiftLeft_and a.toUInt32 6 0x7ff (n := 11) (by decide) (by decide) rfl]
  change (a.toNat * 64 % 2048 + _) % 4294967296 = _
  omega

theorem toNat_value3 (a b c : UInt8) :
    (value3 a b c).toNat = a.toNat * 4096 % 65536 + b.toNat * 64 % 4096 + c.toNat % 64 := by
  rw [value3, UInt32.toNat_add, UInt32.toNat_add, toNat_and_3f,
    toNat_shiftLeft_and a.toUInt32 12 0xffff (n := 16) (by decide) (by decide) rfl,
    toNat_shiftLeft_and b.toUInt32 6 0xfff (n := 12) (by decide) (by decide) rfl]
  change ((a.toNat * 4096 % 65536 + b.toNat * 64 % 4096) % 4294967296 + _) % 4294967296 = _
  omega

theorem toNat_value4 (a b c d : UInt8) :
    (value4 a b c d).toNat = a.toNat * 262144 % 2097152 + b.toNat * 4096 % 262144 +
      c.toNat * 64 % 4096 + d.toNat % 64 := by
  rw [value4, UInt32.toNat_add, UInt32.toNat_add, UInt32.toNat_add, toNat_and_3f,
    toNat_shiftLeft_and a.toUInt32 18 0x1fffff (n := 21) (by decide) (by decide) rfl,
    toNat_shiftLeft_and b.toUInt32 12 0x3ffff (n := 18) (by decide) (by decide) rfl,
    toNat_shiftLeft_and c.toUInt32 6 0xfff (n := 12) (by decide) (by decide) rfl]
  change (((a.toNat * 262144 % 2097152 + b.toNat * 4096 % 262144) % 4294967296 +
    c.toNat * 64 % 4096) % 4294967296 + _) % 4294967296 = _
  omega

theorem bind_eq_ok {ε α β : Type} {x : Except ε α} {f : α → Except ε β} {b : β} :
    x >>= f = .ok b ↔ ∃ a, x = .ok a ∧ f a = .ok b := by
  cases x <;> simp [bind, Except.bind]

theorem bind_eq_error {ε α β : Type} {x : Except ε α} {f : α → Except ε β} {e : ε} :
    x >>= f = .error e ↔ x = .error e ∨ ∃ a, x = .ok a ∧ f a = .error e := by
  cases x <;> simp [bind, Except.bind]

theorem getSequence1_cons (a : UInt8) (rest : List UInt8) :
    getSequence1 (a :: rest) = .ok (a.toUInt32, a :: rest) := by
  rw [getSequence1, if_neg (by simp), mask8_eq]
  rfl

theorem getSequence2_cons (a : UInt8) (it : List UInt8) :
    getSequence2 (a :: it) = do
      let it ← increaseSafely (a :: it)
      return (value2 a (deref it), it) := by
  simp only [getSequence2, mask8_eq]
  rfl

theorem getSequence3_cons (a : UInt8) (it : List UInt8) :
    getSequence3 (a :: it) = do
      let it ← increaseSafely (a :: it)
      let it' ← increaseSafely it
      return (value3 a (deref it) (deref it'), it') := by
  simp only [getSequence3, mask8_eq]
  rfl

theorem getSequence4_cons (a : UInt8) (it : List UInt8) :
    getSequence4 (a :: it) = do
      let it ← increaseSafely (a :: it)
      let it' ← increaseSafely it
      let it'' ← increaseSafely it'
      return (value4 a (deref it) (deref it') (deref it''), it'') := by
  simp only [getSequence4, mask8_eq]
  rfl

theorem getSequence2_eq_ok {a : UInt8} {it it' : List UInt8} {cp : UInt32} :
    getSequence2 (a :: it) = .ok (cp, it') ↔
      ∃ b rest, it = b :: rest ∧ IsTail b ∧ it' = b :: rest ∧ cp = value2 a b := by
  rw [getSequence2_cons, bind_eq_ok]
  simp only [increaseSafely_eq_ok, pure, Except.pure, Except.ok.injEq, Prod.mk.injEq]
  constructor
  · rintro ⟨_, ⟨b, rest, rfl, hb, rfl⟩, rfl, rfl⟩
    exact ⟨b, rest, rfl, hb, rfl, rfl⟩
  · rintro ⟨b, rest, rfl, hb, rfl, rfl⟩
    exact ⟨_, ⟨b, rest, rfl, hb, rfl⟩, rfl, rfl⟩

theorem getSequence3_eq_ok {a : UInt8} {it it' : List UInt8} {cp : UInt32} :
    getSequence3 (a :: it) = .ok (cp, it') ↔
      ∃ b c rest, it = b :: c :: rest ∧ IsTail b ∧ IsTail c ∧ it' = c :: rest ∧
        cp = value3 a b c := by
  simp only [getSequence3_cons, bind_eq_ok, increaseSafely_eq_ok, pure, Except.pure,
    Except.ok.injEq, Prod.mk.injEq]
  constructor
  · rintro ⟨_, ⟨b, _, rfl, hb, rfl⟩, _, h, rfl, rfl⟩
    obtain ⟨c, rest, rfl, hc, rfl⟩ := increaseSafely_eq_ok.mp h
    exact ⟨b, c, rest, rfl, hb, hc, rfl, rfl⟩
  · rintro ⟨b, c, rest, rfl, hb, hc, rfl, rfl⟩
    exact ⟨_, ⟨b, _, rfl, hb, rfl⟩, _, increaseSafely_eq_ok.mpr ⟨c, rest, rfl, hc, rfl⟩, rfl, rfl⟩

theorem getSequence4_eq_ok {a : UInt8} {it it' : List UInt8} {cp : UInt32} :
    getSequence4 (a :: it) = .ok (cp, it') ↔
      ∃ b c d rest, it = b :: c :: d :: rest ∧ IsTail b ∧ IsTail c ∧ IsTail d ∧
        it' = d :: rest ∧ cp = value4 a b c d := by
  simp only [getSequence4_cons, bind_eq_ok, increaseSafely_eq_ok, pure, Except.pure,
    Except.ok.injEq, Prod.mk.injEq]
  constructor
  · rintro ⟨_, ⟨b, _, rfl, hb, rfl⟩, _, h, _, h', rfl, rfl⟩
    obtain ⟨c, _, rfl, hc, rfl⟩ := increaseSafely_eq_ok.mp h
    obtain ⟨d, rest, rfl, hd, rfl⟩ := increaseSafely_eq_ok.mp h'
    exact ⟨b, c, d, rest, rfl, hb, hc, hd, rfl, rfl⟩
  · rintro ⟨b, c, d, rest, rfl, hb, hc, hd, rfl, rfl⟩
    exact ⟨_, ⟨b, _, rfl, hb, rfl⟩, _, increaseSafely_eq_ok.mpr ⟨c, _, rfl, hc, rfl⟩, _,
      increaseSafely_eq_ok.mpr ⟨d, rest, rfl, hd, rfl⟩, rfl, rfl⟩

theorem utf8EncodeChar_eq_iff {c : Char} {xs : List UInt8} :
    String.utf8EncodeChar c = xs ↔
      (String.utf8EncodeChar c).map UInt8.toNat = xs.map UInt8.toNat :=
  (List.map_inj_right fun _ _ => UInt8.toNat.inj).symm

theorem val_eq_iff {c : Char} {cp : UInt32} : c.val = cp ↔ c.toNat = cp.toNat :=
  UInt32.toNat_inj.symm

theorem utf8EncodeChar_one {c : Char} {a : UInt8} :
    String.utf8EncodeChar c = [a] ↔ sequenceLength a = 1 ∧ c.val = a.toUInt32 := by
  have ha := a.toNat_lt
  rw [utf8EncodeChar_eq_iff, toNat_utf8EncodeChar, sequenceLength_eq, val_eq_iff,
    UInt8.toNat_toUInt32]
  split_ifs <;> simp <;> omega

theorem utf8EncodeChar_two {c : Char} {a b : UInt8} :
    String.utf8EncodeChar c = [a, b] ↔
      sequenceLength a = 2 ∧ IsTail b ∧ c.val = value2 a b ∧ 0x80 ≤ c.toNat := by
  have ha := a.toNat_lt
  rw [utf8EncodeChar_eq_iff, toNat_utf8EncodeChar, sequenceLength_eq, val_eq_iff, toNat_value2]
  unfold IsTail
  split_ifs <;> simp <;> omega

theorem utf8EncodeChar_three {c : Char} {a b d : UInt8} :
    String.utf8EncodeChar c = [a, b, d] ↔
      sequenceLength a = 3 ∧ IsTail b ∧ IsTail d ∧ c.val = value3 a b d ∧ 0x800 ≤ c.toNat := by
  have ha := a.toNat_lt
  rw [utf8EncodeChar_eq_iff, toNat_utf8EncodeChar, sequenceLength_eq, val_eq_iff, toNat_value3]
  unfold IsTail
  split_ifs <;> simp <;> omega

theorem utf8EncodeChar_four {c : Char} {a b d e : UInt8} :
    String.utf8EncodeChar c = [a, b, d, e] ↔
      sequenceLength a = 4 ∧ IsTail b ∧ IsTail d ∧ IsTail e ∧ c.val = value4 a b d e ∧
        0x10000 ≤ c.toNat := by
  have ha := a.toNat_lt
  have hc := toNat_valid c
  rw [utf8EncodeChar_eq_iff, toNat_utf8EncodeChar, sequenceLength_eq, val_eq_iff, toNat_value4]
  unfold IsTail
  split_ifs <;> simp <;> omega

end Sequences

def getSequence (length : ℕ) (it : List UInt8) : Except UtfError (UInt32 × List UInt8) :=
  match length with
  | 1 => getSequence1 it
  | 2 => getSequence2 it
  | 3 => getSequence3 it
  | 4 => getSequence4 it
  | _ => .error .invalidLead

/-- An iterator that is given back is behind the sequence; an error leaves it where it was. -/
def validateNext (it : List UInt8) : Except UtfError (UInt32 × List UInt8) := do
  let length := sequenceLength (deref it)
  let (cp, it) ← getSequence length it
  if isCodePointValid cp then
    if !isOverlongSequence cp length then return (cp, it.tail)
    else throw .overlongSequence
  else throw .invalidCodePoint

theorem validateNext_cons_eq_ok {a : UInt8} {t rest : List UInt8} {cp : UInt32} :
    validateNext (a :: t) = .ok (cp, rest) ↔
      ∃ it, getSequence (sequenceLength a) (a :: t) = .ok (cp, it) ∧ rest = it.tail ∧
        isCodePointValid cp = true ∧ isOverlongSequence cp (sequenceLength a) = false := by
  simp only [validateNext, bind_eq_ok, deref_cons]
  constructor
  · rintro ⟨⟨cp', it⟩, hseq, h⟩
    cases hvalid : isCodePointValid cp' with
    | false =>
      simp only [hvalid] at h
      cases h
    | true =>
      cases hlong : isOverlongSequence cp' (sequenceLength a) with
      | true =>
        simp only [hvalid, hlong] at h
        cases h
      | false =>
        simp only [hvalid, hlong] at h
        cases h
        exact ⟨it, hseq, rfl, hvalid, hlong⟩
  · rintro ⟨it, hseq, rfl, hvalid, hlong⟩
    refine ⟨(cp, it), hseq, ?_⟩
    simp only [hvalid, hlong]
    rfl

theorem validateNext_sound {it rest : List UInt8} {cp : UInt32}
    (h : validateNext it = .ok (cp, rest)) :
    ∃ c : Char, c.val = cp ∧ it = String.utf8EncodeChar c ++ rest := by
  match it with
  | [] => cases h
  | a :: t =>
    obtain ⟨it, hseq, rfl, hvalid, hlong⟩ := validateNext_cons_eq_ok.mp h
    obtain ⟨c, rfl⟩ := (isCodePointValid_iff_char cp).mp hvalid
    obtain ⟨h1, h2, h3⟩ := isOverlongSequence_char.mp hlong
    refine ⟨c, rfl, ?_⟩
    match hlen : sequenceLength a with
    | 1 =>
      rw [hlen, getSequence, getSequence1_cons] at hseq
      obtain ⟨hval, rfl⟩ := Prod.mk.inj (Except.ok.inj hseq)
      rw [utf8EncodeChar_one.mpr ⟨hlen, hval.symm⟩]
      rfl
    | 2 =>
      rw [hlen, getSequence, getSequence2_eq_ok] at hseq
      obtain ⟨b, rest, rfl, hb, rfl, hval⟩ := hseq
      rw [utf8EncodeChar_two.mpr ⟨hlen, hb, hval, by omega⟩]
      rfl
    | 3 =>
      rw [hlen, getSequence, getSequence3_eq_ok] at hseq
      obtain ⟨b, d, rest, rfl, hb, hd, rfl, hval⟩ := hseq
      rw [utf8EncodeChar_three.mpr ⟨hlen, hb, hd, hval, by omega⟩]
      rfl
    | 4 =>
      rw [hlen, getSequence, getSequence4_eq_ok] at hseq
      obtain ⟨b, d, e, rest, rfl, hb, hd, he, rfl, hval⟩ := hseq
      rw [utf8EncodeChar_four.mpr ⟨hlen, hb, hd, he, hval, by omega⟩]
      rfl
    | 0 | n + 5 =>
      rw [hlen] at hseq
      cases hseq

theorem validateNext_encodeChar (c : Char) (rest : List UInt8) :
    validateNext (String.utf8EncodeChar c ++ rest) = .ok (c.val, rest) := by
  have hvalid := (isCodePointValid_iff_char c.val).mpr ⟨c, rfl⟩
  obtain ⟨hc, a, h⟩ | ⟨hc, hc', a, b, h⟩ | ⟨hc, hc', a, b, d, h⟩ | ⟨hc, a, b, d, e, h⟩ :=
    utf8EncodeChar_cases c
  all_goals rw [h]; refine validateNext_cons_eq_ok.mpr ?_
  · obtain ⟨hlen, hval⟩ := utf8EncodeChar_one.mp h
    refine ⟨a :: rest, ?_, rfl, hvalid, isOverlongSequence_char.mpr (by omega)⟩
    rw [hlen, hval, getSequence]
    exact getSequence1_cons a rest
  · obtain ⟨hlen, hb, hval, _⟩ := utf8EncodeChar_two.mp h
    refine ⟨b :: rest, ?_, rfl, hvalid, isOverlongSequence_char.mpr (by omega)⟩
    rw [hlen, getSequence]
    exact getSequence2_eq_ok.mpr ⟨b, rest, rfl, hb, rfl, hval⟩
  · obtain ⟨hlen, hb, hd, hval, _⟩ := utf8EncodeChar_three.mp h
    refine ⟨d :: rest, ?_, rfl, hvalid, isOverlongSequence_char.mpr (by omega)⟩
    rw [hlen, getSequence]
    exact getSequence3_eq_ok.mpr ⟨b, d, rest, rfl, hb, hd, rfl, hval⟩
  · obtain ⟨hlen, hb, hd, he, hval, _⟩ := utf8EncodeChar_four.mp h
    refine ⟨e :: rest, ?_, rfl, hvalid, isOverlongSequence_char.mpr (by omega)⟩
    rw [hlen, getSequence]
    exact getSequence4_eq_ok.mpr ⟨b, d, e, rest, rfl, hb, hd, he, rfl, hval⟩

/-- A sequence is taken exactly where it stands for a character. -/
theorem validateNext_eq_ok {it rest : List UInt8} {cp : UInt32} :
    validateNext it = .ok (cp, rest) ↔
      ∃ c : Char, c.val = cp ∧ it = String.utf8EncodeChar c ++ rest := by
  constructor
  · exact validateNext_sound
  · rintro ⟨c, rfl, rfl⟩
    exact validateNext_encodeChar c rest

example : validateNext [0xe2, 0x82, 0xac, 0x41] = .ok (0x20ac, [0x41]) := by rfl

end TestCodes.TestUnitsNew.Utf8
