import Mathlib.Algebra.Group.Nat.Defs
import Mathlib.Tactic.SplitIfs

/-! The encodings of a text as octets and as 16-bit words, by the numbers of its characters. -/
namespace TestCodes.Unicode

theorem toNat_valid (c : Char) : c.toNat < 0xd800 ∨ 0xdfff < c.toNat ∧ c.toNat < 0x110000 :=
  c.valid

theorem exists_char {n : ℕ} (h : n < 0xd800 ∨ 0xdfff < n ∧ n < 0x110000) :
    ∃ c : Char, c.toNat = n :=
  ⟨Char.ofNatAux n h, UInt32.toNat_ofNatLT⟩

section Octets

def encode8 (cs : List Char) : List UInt8 := cs.flatMap String.utf8EncodeChar

@[simp] theorem encode8_nil : encode8 [] = [] := rfl

@[simp] theorem encode8_cons (c : Char) (cs : List Char) :
    encode8 (c :: cs) = String.utf8EncodeChar c ++ encode8 cs := by
  simp [encode8]

@[simp] theorem encode8_append (cs ds : List Char) :
    encode8 (cs ++ ds) = encode8 cs ++ encode8 ds := by
  simp [encode8]

theorem isValidUTF8_iff (xs : List UInt8) :
    xs.toByteArray.IsValidUTF8 ↔ ∃ cs, xs = encode8 cs := by
  constructor
  · rintro ⟨cs, hcs⟩
    refine ⟨cs, ?_⟩
    have hxs : xs.toByteArray = (encode8 cs).toByteArray := hcs
    simpa using congrArg (·.data.toList) hxs
  · rintro ⟨cs, rfl⟩
    exact ⟨cs, rfl⟩

theorem toNat_utf8EncodeChar (c : Char) :
    (String.utf8EncodeChar c).map UInt8.toNat =
      if c.toNat < 0x80 then [c.toNat]
      else if c.toNat < 0x800 then [192 + c.toNat / 64, 128 + c.toNat % 64]
      else if c.toNat < 0x10000 then
        [224 + c.toNat / 4096, 128 + c.toNat / 64 % 64, 128 + c.toNat % 64]
      else
        [240 + c.toNat / 262144, 128 + c.toNat / 4096 % 64, 128 + c.toNat / 64 % 64,
          128 + c.toNat % 64] := by
  have hc := toNat_valid c
  change (String.utf8EncodeChar c).map UInt8.toNat = _
  unfold String.utf8EncodeChar
  change List.map _ (if c.toNat ≤ 0x7f then _ else if c.toNat ≤ 0x7ff then _ else
    if c.toNat ≤ 0xffff then _ else _) = _
  split_ifs <;> simp [UInt8.toNat_ofNat] <;> omega

/-- An octet that continues a character. -/
def IsTail (b : UInt8) : Prop := 128 ≤ b.toNat ∧ b.toNat < 192

theorem utf8EncodeChar_cases (c : Char) :
    (c.toNat < 0x80 ∧ ∃ a, String.utf8EncodeChar c = [a]) ∨
      (0x80 ≤ c.toNat ∧ c.toNat < 0x800 ∧ ∃ a b, String.utf8EncodeChar c = [a, b]) ∨
        (0x800 ≤ c.toNat ∧ c.toNat < 0x10000 ∧ ∃ a b d, String.utf8EncodeChar c = [a, b, d]) ∨
          0x10000 ≤ c.toNat ∧ ∃ a b d e, String.utf8EncodeChar c = [a, b, d, e] := by
  have hnat := toNat_utf8EncodeChar c
  split_ifs at hnat <;> simp only [List.map_eq_cons_iff, List.map_eq_nil_iff] at hnat
  · obtain ⟨a, _, h, _, rfl⟩ := hnat
    exact .inl ⟨by omega, a, h⟩
  · obtain ⟨a, _, h, _, b, _, rfl, _, rfl⟩ := hnat
    exact .inr (.inl ⟨by omega, by omega, a, b, h⟩)
  · obtain ⟨a, _, h, _, b, _, rfl, _, d, _, rfl, _, rfl⟩ := hnat
    exact .inr (.inr (.inl ⟨by omega, by omega, a, b, d, h⟩))
  · obtain ⟨a, _, h, _, b, _, rfl, _, d, _, rfl, _, e, _, rfl, _, rfl⟩ := hnat
    exact .inr (.inr (.inr ⟨by omega, a, b, d, e, h⟩))

theorem utf8EncodeChar_tails (c : Char) :
    ∃ b bs, String.utf8EncodeChar c = b :: bs ∧ ¬ IsTail b ∧ ∀ x ∈ bs, IsTail x := by
  have hc := toNat_valid c
  have hnat := toNat_utf8EncodeChar c
  unfold IsTail
  obtain ⟨h1, a, h⟩ | ⟨h1, h2, a, b, h⟩ | ⟨h1, h2, a, b, d, h⟩ | ⟨h1, a, b, d, e, h⟩ :=
    utf8EncodeChar_cases c
  · rw [h, if_pos h1] at hnat
    simp only [List.map_cons, List.map_nil, List.cons.injEq, and_true] at hnat
    exact ⟨a, [], h, by omega, by simp⟩
  · rw [h, if_neg (by omega), if_pos h2] at hnat
    simp only [List.map_cons, List.map_nil, List.cons.injEq, and_true] at hnat
    exact ⟨a, [b], h, by omega, by simp; omega⟩
  · rw [h, if_neg (by omega), if_neg (by omega), if_pos h2] at hnat
    simp only [List.map_cons, List.map_nil, List.cons.injEq, and_true] at hnat
    exact ⟨a, [b, d], h, by omega, by simp; omega⟩
  · rw [h, if_neg (by omega), if_neg (by omega), if_neg (by omega)] at hnat
    simp only [List.map_cons, List.map_nil, List.cons.injEq, and_true] at hnat
    exact ⟨a, [b, d, e], h, by omega, by simp; omega⟩

end Octets

section Words

/-- The words of a character in UTF-16: a surrogate pair for one above the first plane. -/
def encodeChar16 (c : Char) : List UInt16 :=
  if c.toNat < 0x10000 then [UInt16.ofNat c.toNat]
  else
    [UInt16.ofNat (0xd800 + (c.toNat - 0x10000) / 1024),
      UInt16.ofNat (0xdc00 + (c.toNat - 0x10000) % 1024)]

def encode16 (cs : List Char) : List UInt16 := cs.flatMap encodeChar16

theorem toNat_encodeChar16 (c : Char) :
    (encodeChar16 c).map UInt16.toNat =
      if c.toNat < 0x10000 then [c.toNat]
      else [0xd800 + (c.toNat - 0x10000) / 1024, 0xdc00 + (c.toNat - 0x10000) % 1024] := by
  have hc := toNat_valid c
  unfold encodeChar16
  split_ifs <;> simp [UInt16.toNat_ofNat] <;> omega

end Words

end TestCodes.Unicode
