import Mathlib.Algebra.Ring.Int.Defs
import TestCodes.TestUnitsNew.BitBuff

/-! The text of a buffer of bits, for every type of the index. -/
namespace TestCodes.TestUnitsNew

/-- An integral or enumeration type as `TySet`: the conversion of a `size_t`, and the value
after the integral promotions. Compared with a `size_t`, a wide type keeps its value and
every other one is converted. -/
structure IndexType where
  Index : Type
  ofSizeT : ℕ → Index
  promoted : Index → Int
  wide : Bool

namespace IndexType

/-- The conversion of a promoted value to `size_t`. -/
def toSizeT (value : Int) : ℕ := (value % 2 ^ 32).toNat

def less (T : IndexType) (i : T.Index) (count : ℕ) : Bool :=
  if T.wide then T.promoted i < count else toSizeT (T.promoted i) < count

def int : IndexType := ⟨Int32, .ofNat, Int32.toInt, false⟩

/-- The type has a value for every index of a bit. -/
def Represents (T : IndexType) (n : BitCount) : Prop :=
  ∀ k < n.val, T.promoted (T.ofSizeT k) = k

end IndexType

open IndexType

namespace BitBuff
variable {n : BitCount}

def getAt (T : IndexType) (b : BitBuff n) (whereFrom : T.Index) (toGet : Bool) :
    Option (Bool × Bool) :=
  if ¬ T.less whereFrom n.val then some (false, toGet)
  else
    let bufferIdx := toSizeT ((T.promoted whereFrom).tdiv CHAR_BIT)
    let bitIdx := toSizeT ((T.promoted whereFrom).tmod CHAR_BIT)
    if ¬ bufferIdx < n.sizeBytes then some (false, toGet)
    else
      b.buffer[bufferIdx]?.bind fun byte =>
      (shl 1 bitIdx).map fun mask => (true, decide (0 ≠ byte.toInt32 &&& mask))

def setAt (T : IndexType) (b : BitBuff n) (toSet : T.Index) (aBit : Bool)
    (beforeBit : Option Bool) : Option (Bool × Option Bool × BitBuff n) :=
  (b.getAt T toSet (beforeBit.getD false)).bind fun (done, before) =>
  if done = false then some (false, beforeBit.map fun _ => before, b)
  else
    let bufferIdx := toSizeT ((T.promoted toSet).tdiv CHAR_BIT)
    let bitIdx := toSizeT ((T.promoted toSet).tmod CHAR_BIT)
    b.buffer[bufferIdx]?.bind fun byte =>
    (shl 1 bitIdx).bind fun mask =>
    (shl aBit.toInt32 bitIdx).bind fun bit =>
    (b.write bufferIdx (masked byte mask bit)).map fun b' =>
    (true, beforeBit.map fun _ => before, b')

end BitBuff

def charZero : Int8 := 0x30

def charOne : Int8 := 0x31

@[ext] structure StrType (n : BitCount) where
  chars : List Int8
  sizeof_chars : chars.length = n.val + 1

/-- A character is written; behind the array that is undefined. -/
def StrType.write {n : BitCount} (str : StrType n) (i : ℕ) (c : Int8) : Option (StrType n) :=
  if i < str.chars.length then
    some ⟨str.chars.set i c, List.length_set.trans str.sizeof_chars⟩
  else none

namespace BitBuff
variable {n : BitCount}

/-- One round of the loop of `ExportTo`; `bit` is not initialised. -/
def exportBit (T : IndexType) (b : BitBuff n) (uninit : ℕ → Bool) (toStr : StrType n)
    (sizeCur : ℕ) : Option (StrType n) :=
  (b.getAt T (T.ofSizeT sizeCur) (uninit sizeCur)).bind fun (_, bit) =>
  toStr.write sizeCur (bit.toInt32 + charZero.toInt32).toInt8

def exportTo (T : IndexType) (b : BitBuff n) (uninit : ℕ → Bool) (toStr : StrType n) :
    Option (StrType n) :=
  (Machine.run (exportBit T b uninit) toStr (List.range n.val)).bind fun toStr =>
  toStr.write n.val 0

/-- One round of the loop of `ImportFrom`. -/
def importBit (T : IndexType) (fromStr : StrType n) (b : BitBuff n) (sizeCur : ℕ) :
    Option (BitBuff n) :=
  fromStr.chars[sizeCur]?.bind fun currentChar =>
  if ¬ (currentChar = charZero ∨ currentChar = charOne) then some b
  else
    let currentBit := decide (charOne = currentChar)
    (b.setAt T (T.ofSizeT sizeCur) currentBit none).map fun out => out.2.2

def importFrom (T : IndexType) (b : BitBuff n) (fromStr : StrType n) : Option (BitBuff n) :=
  Machine.run (importBit T fromStr) b (List.range n.val)

end BitBuff

/-! An index that has the value of an `int` is as good as the `int`. -/

theorem toSizeT_toInt (i : Int32) : toSizeT i.toInt = sizeT i := by
  have hlt := i.toUInt32.toNat_lt
  have hint : i.toInt = if 2 * sizeT i < 2 ^ 32 then (sizeT i : ℤ) else sizeT i - 2 ^ 32 :=
    BitVec.toInt_eq_toNat_cond i.toBitVec
  unfold toSizeT
  rw [hint]
  unfold sizeT
  split <;> omega

theorem toInt_charBit : (Int32.ofNat CHAR_BIT).toInt = CHAR_BIT :=
  Int32.toInt_ofNat_of_lt (by decide)

theorem toSizeT_tdiv (i : Int32) :
    toSizeT (i.toInt.tdiv CHAR_BIT) = sizeT (i / .ofNat CHAR_BIT) := by
  rw [← toSizeT_toInt, Int32.toInt_div, toInt_charBit]
  unfold toSizeT
  rw [show (2 : Int) ^ 32 = ((2 ^ 32 : ℕ) : Int) from rfl, Int.bmod_emod]

theorem toSizeT_tmod (i : Int32) :
    toSizeT (i.toInt.tmod CHAR_BIT) = sizeT (i % .ofNat CHAR_BIT) := by
  rw [← toSizeT_toInt, Int32.toInt_mod, toInt_charBit]

theorem IndexType.less_iff {T : IndexType} {i : T.Index} {j : Int32}
    (hi : T.promoted i = j.toInt) (hwide : T.wide = true → 0 ≤ j.toInt) (count : ℕ) :
    T.less i count = true ↔ sizeT j < count := by
  have hsize := toSizeT_toInt j
  unfold IndexType.less
  split
  · rename_i hw
    have hpos := hwide hw
    have hlt := j.toInt_lt
    rw [decide_eq_true_eq, hi, ← hsize]
    unfold toSizeT
    omega
  · rw [decide_eq_true_eq, hi, hsize]

namespace BitBuff
variable {n : BitCount} {T : IndexType} {i : T.Index} {j : Int32}

theorem getAt_eq (b : BitBuff n) (hi : T.promoted i = j.toInt)
    (hwide : T.wide = true → 0 ≤ j.toInt) (toGet : Bool) :
    b.getAt T i toGet = b.get j toGet := by
  have hless := IndexType.less_iff hi hwide n.val
  simp only [getAt, get, hless, hi, toSizeT_tdiv, toSizeT_tmod]

theorem setAt_eq (b : BitBuff n) (hi : T.promoted i = j.toInt)
    (hwide : T.wide = true → 0 ≤ j.toInt) (aBit : Bool) (beforeBit : Option Bool) :
    b.setAt T i aBit beforeBit = b.set j aBit beforeBit := by
  simp only [setAt, set, b.getAt_eq hi hwide, hi, toSizeT_tdiv, toSizeT_tmod]

theorem int_of_index {k : ℕ} (hk : k < n.val) :
    (Int32.ofNat k).toInt = k ∧ n.Has (.ofNat k) ∧ sizeT (.ofNat k) = k := by
  have hn := n.sizeof_STR_TYPE
  have hint : (Int32.ofNat k).toInt = k := Int32.toInt_ofNat_of_lt (by omega)
  refine ⟨hint, ?_, ?_⟩
  · rw [BitCount.Has, hint]
    omega
  · rw [← toSizeT_toInt, hint]
    unfold toSizeT
    omega

theorem getAt_ofSizeT (b : BitBuff n) (represents : T.Represents n) {k : ℕ} (hk : k < n.val)
    (toGet : Bool) : b.getAt T (T.ofSizeT k) toGet = some (true, b.bit k) := by
  obtain ⟨hint, hhas, hsize⟩ := int_of_index hk
  have hvalue : T.promoted (T.ofSizeT k) = (Int32.ofNat k).toInt :=
    (represents k hk).trans hint.symm
  rw [b.getAt_eq hvalue fun _ => hhas.1, get_of_has hhas, hsize]

theorem setAt_ofSizeT (b : BitBuff n) (represents : T.Represents n) {k : ℕ} (hk : k < n.val)
    (aBit : Bool) : ∃ b', b.setAt T (T.ofSizeT k) aBit none = some (true, none, b') ∧
      ∀ j, b'.bit j = if j = k then aBit else b.bit j := by
  obtain ⟨hint, hhas, hsize⟩ := int_of_index hk
  have hvalue : T.promoted (T.ofSizeT k) = (Int32.ofNat k).toInt :=
    (represents k hk).trans hint.symm
  obtain ⟨b', hset, hbits⟩ := b.set_of_has hhas aBit none
  refine ⟨b', ?_, ?_⟩
  · rw [b.setAt_eq hvalue fun _ => hhas.1, hset]
    rfl
  · rwa [hsize] at hbits

/-! The two loops. -/

def bitChar (bit : Bool) : Int8 := if bit then charOne else charZero

theorem bitChar_eq (bit : Bool) : (bit.toInt32 + charZero.toInt32).toInt8 = bitChar bit := by
  cases bit <;> rfl

theorem bitChar_cases (bit : Bool) : bitChar bit = charZero ∨ bitChar bit = charOne := by
  cases bit with
  | false => exact .inl rfl
  | true => exact .inr rfl

theorem one_eq_bitChar (bit : Bool) : decide (charOne = bitChar bit) = bit := by
  cases bit <;> decide

def text (b : BitBuff n) : List Int8 := (List.range n.val).map fun k => bitChar (b.bit k)

theorem text_length (b : BitBuff n) : b.text.length = n.val := by
  rw [text, List.length_map, List.length_range]

/-- The loop overwrites the string from its start; the invariant is the part written. -/
theorem exportBits (b : BitBuff n) (represents : T.Represents n) (uninit : ℕ → Bool)
    (toStr : StrType n) : ∃ str, Machine.run (exportBit T b uninit) toStr (List.range n.val) =
      some str ∧ str.chars = b.text ++ toStr.chars.drop n.val := by
  apply Machine.run_range (exportBit T b uninit) fun k str =>
    str.chars = ((List.range k).map fun k => bitChar (b.bit k)) ++ toStr.chars.drop k
  · intro k str hk hstr
    have hlen := toStr.sizeof_chars
    have hdrop : toStr.chars.drop k = toStr.chars[k] :: toStr.chars.drop (k + 1) :=
      List.drop_eq_getElem_cons (by omega)
    refine ⟨⟨str.chars.set k (bitChar (b.bit k)), List.length_set.trans str.sizeof_chars⟩, ?_, ?_⟩
    · rw [exportBit, b.getAt_ofSizeT represents hk, Option.bind_some]
      simp only [bitChar_eq]
      exact if_pos (by rw [str.sizeof_chars]; omega)
    · have hprefix : ((List.range k).map fun k => bitChar (b.bit k)).length = k := by
        rw [List.length_map, List.length_range]
      simp only
      rw [hstr, hdrop, List.set_append_right k _ (le_of_eq hprefix), hprefix, Nat.sub_self,
        List.set_cons_zero, List.range_succ, List.map_append, List.append_assoc]
      rfl
  · rfl

/-- `ExportTo` writes the text and a null behind it, whatever was there. -/
theorem exportTo_eq (b : BitBuff n) (represents : T.Represents n) (uninit : ℕ → Bool)
    (toStr : StrType n) : ∃ str, b.exportTo T uninit toStr = some str ∧
      str.chars = b.text ++ [0] := by
  obtain ⟨str, hrun, hstr⟩ := b.exportBits represents uninit toStr
  have hlen := toStr.sizeof_chars
  refine ⟨⟨str.chars.set n.val 0, List.length_set.trans str.sizeof_chars⟩, ?_, ?_⟩
  · rw [exportTo, hrun, Option.bind_some]
    exact if_pos (by rw [str.sizeof_chars]; omega)
  · have hdrop : toStr.chars.drop n.val = [toStr.chars[n.val]] := by
      rw [List.drop_eq_getElem_cons (by omega), List.drop_of_length_le (by omega)]
    simp only
    rw [hstr, hdrop, List.set_append_right n.val _ (le_of_eq b.text_length), b.text_length,
      Nat.sub_self]
    rfl

/-- The bit that a character stands for; another character leaves the bit. -/
def importedBit (c : Int8) (bit : Bool) : Bool :=
  if c = charZero ∨ c = charOne then decide (charOne = c) else bit

theorem importBit_eq (represents : T.Represents n) (fromStr : StrType n) (b : BitBuff n) {k : ℕ}
    (hk : k < n.val) {c : Int8} (hc : fromStr.chars[k]? = some c) :
    ∃ b', importBit T fromStr b k = some b' ∧
      ∀ j, b'.bit j = if j = k then importedBit c (b.bit j) else b.bit j := by
  unfold importedBit
  by_cases hbit : c = charZero ∨ c = charOne
  · obtain ⟨b', hset, hbits⟩ := b.setAt_ofSizeT represents hk (decide (charOne = c))
    refine ⟨b', ?_, fun j => ?_⟩
    · rw [importBit, hc, Option.bind_some, if_neg (not_not.mpr hbit)]
      simp only [hset, Option.map_some]
    · rw [hbits, if_pos hbit]
  · refine ⟨b, ?_, fun j => ?_⟩
    · rw [importBit, hc, Option.bind_some, if_pos hbit]
    · rw [if_neg hbit, ite_self]

theorem importFrom_eq (represents : T.Represents n) (b : BitBuff n) (fromStr : StrType n) :
    ∃ b', b.importFrom T fromStr = some b' ∧ ∀ j, b'.bit j =
      if j < n.val then importedBit (fromStr.chars.getD j 0) (b.bit j) else b.bit j := by
  apply Machine.run_range (importBit T fromStr) fun k b' => ∀ j, b'.bit j =
    if j < k then importedBit (fromStr.chars.getD j 0) (b.bit j) else b.bit j
  · intro k b' hk hbits
    have hlen := fromStr.sizeof_chars
    have hc : fromStr.chars[k]? = some (fromStr.chars.getD k 0) := by
      rw [List.getD_eq_getElem?_getD, List.getElem?_eq_getElem (by omega), Option.getD_some]
    obtain ⟨b'', hstep, hbit⟩ := importBit_eq represents fromStr b' hk hc
    refine ⟨b'', hstep, fun j => ?_⟩
    rw [hbit, hbits]
    by_cases hj : j = k
    · rw [if_pos hj, if_neg (by omega), if_pos (by omega), hj]
    · rw [if_neg hj]
      exact if_congr (by omega) rfl rfl
  · exact fun j => (if_neg (Nat.not_lt_zero j)).symm

theorem bitChar_importedBit {c : Int8} (hc : c = charZero ∨ c = charOne) (bit : Bool) :
    bitChar (importedBit c bit) = c := by
  rcases hc with rfl | rfl <;> rfl

theorem importedBit_bitChar (bit old : Bool) : importedBit (bitChar bit) old = bit := by
  rw [importedBit, if_pos (bitChar_cases bit), one_eq_bitChar]

theorem text_getD {b : BitBuff n} {k : ℕ} (hk : k < n.val) :
    (b.text ++ [0]).getD k 0 = bitChar (b.bit k) := by
  have hlt : k < b.text.length := by rwa [text_length]
  rw [List.getD_eq_getElem?_getD, List.getElem?_append_left hlt, List.getElem?_eq_getElem hlt,
    Option.getD_some]
  simp only [text, List.getElem_map, List.getElem_range]

end BitBuff

/-- `ImportFrom` of a string: a digit sets its bit, and all other bits are kept. -/
structure Imports {n : BitCount} (str : StrType n) (b b' : BitBuff n) : Prop where
  zero : ∀ k < n.val, str.chars[k]? = some charZero → b'.bit k = false
  one : ∀ k < n.val, str.chars[k]? = some charOne → b'.bit k = true
  other : ∀ k < n.val, str.chars[k]? ≠ some charZero → str.chars[k]? ≠ some charOne →
    b'.bit k = b.bit k
  outside : ∀ k, n.val ≤ k → b'.bit k = b.bit k

namespace BitBuff
variable {n : BitCount} {T : IndexType}

theorem importFrom_imports (represents : T.Represents n) (b : BitBuff n) (str : StrType n) :
    ∃ b', b.importFrom T str = some b' ∧ Imports str b b' := by
  obtain ⟨b', himport, hbits⟩ := importFrom_eq represents b str
  have hget : ∀ {k c}, str.chars[k]? = some c → str.chars.getD k 0 = c := by
    intro k c hc
    rw [List.getD_eq_getElem?_getD, hc, Option.getD_some]
  refine ⟨b', himport, ?_, ?_, ?_, ?_⟩
  · intro k hk hc
    rw [hbits, if_pos hk, hget hc]
    rfl
  · intro k hk hc
    rw [hbits, if_pos hk, hget hc]
    rfl
  · intro k hk hzero hone
    have hlen := str.sizeof_chars
    rw [List.getElem?_eq_getElem (by omega), Ne, Option.some.injEq] at hzero hone
    rw [hbits, if_pos hk, hget (List.getElem?_eq_getElem (by omega)), importedBit,
      if_neg (not_or.mpr ⟨hzero, hone⟩)]
  · intro k hk
    rw [hbits, if_neg (Nat.not_lt.mpr hk)]

/-- Import and export are inverse, under every index type that has the indices. -/
theorem text_inverse (T : IndexType) (n : BitCount) (represents : T.Represents n) :
    (∀ (b : BitBuff n) (str : StrType n) (s : List Int8), str.chars = s ++ [0] →
      (∀ c ∈ s, c = charZero ∨ c = charOne) →
      ∃ b', b.importFrom T str = some b' ∧ ∀ uninit toStr, b'.exportTo T uninit toStr = some str) ∧
    (∀ (b b₀ : BitBuff n) uninit toStr, ∃ str b', b.exportTo T uninit toStr = some str ∧
      b₀.importFrom T str = some b' ∧ ∀ k < n.val, b'.bit k = b.bit k) ∧
    ∀ (b : BitBuff n) (str : StrType n), ∃ b', b.importFrom T str = some b' ∧
      Imports str b b' := by
  refine ⟨?_, ?_, importFrom_imports represents⟩
  · intro b str s hstr hdigits
    have hlen : s.length = n.val := by
      have hsize := str.sizeof_chars
      rw [hstr, List.length_append, List.length_singleton] at hsize
      omega
    obtain ⟨b', himport, hbits⟩ := importFrom_eq represents b str
    have htext : b'.text = s := by
      apply List.ext_getElem (by rw [text_length, hlen])
      intro k hk hks
      have hget : str.chars.getD k 0 = s[k] := by
        rw [hstr, List.getD_eq_getElem?_getD, List.getElem?_append_left hks,
          List.getElem?_eq_getElem hks, Option.getD_some]
      simp only [text, List.getElem_map, List.getElem_range]
      rw [hbits, if_pos (by omega), hget, bitChar_importedBit (hdigits _ (List.getElem_mem hks))]
    refine ⟨b', himport, fun uninit toStr => ?_⟩
    obtain ⟨str', hexport, hstr'⟩ := b'.exportTo_eq represents uninit toStr
    have hsame : str' = str := by
      ext1
      rw [hstr', htext, hstr]
    rw [hexport, hsame]
  · intro b b₀ uninit toStr
    obtain ⟨str, hexport, hstr⟩ := b.exportTo_eq represents uninit toStr
    obtain ⟨b', himport, hbits⟩ := importFrom_eq represents b₀ str
    refine ⟨str, b', hexport, himport, fun k hk => ?_⟩
    rw [hbits, if_pos hk, hstr, text_getD hk, importedBit_bitChar]

def difficultCount : BitCount := ⟨6, by decide⟩

def strBitFrom : StrType difficultCount :=
  ⟨[charOne, charZero, charOne, charOne, charZero, charOne] ++ [0], rfl⟩

theorem text_inverse_difficult : ∃ b', (new difficultCount).importFrom .int strBitFrom = some b' ∧
    ∀ uninit toStr, b'.exportTo .int uninit toStr = some strBitFrom := by
  have hchars : ∀ c ∈ [charOne, charZero, charOne, charOne, charZero, charOne],
      c = charZero ∨ c = charOne := by
    simp only [List.forall_mem_cons]
    simp
  exact (text_inverse .int difficultCount fun _ hk => (int_of_index hk).1).1 (new difficultCount)
    strBitFrom _ rfl hchars

end BitBuff
end TestCodes.TestUnitsNew
