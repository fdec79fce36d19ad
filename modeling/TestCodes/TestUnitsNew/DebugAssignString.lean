import TestCodes.Lib.Decimal
import TestCodes.Lib.CharLiteral

/-! `DebugAssignString`: the text that a debugger is given to assign a string to an array,
four characters at a time. -/
namespace TestCodes.TestUnitsNew
open CharLiteral (quote)

/-- The type that an assignment is made through. -/
inductive AssignType
  | char
  | short
  | int
  deriving DecidableEq

namespace AssignType

def ofSize (sizeToWrite : ℕ) : AssignType :=
  if sizeToWrite = 1 then .char else if sizeToWrite = 2 then .short else .int

def width : AssignType → ℕ
  | .char => 1
  | .short => 2
  | .int => 4

def name : AssignType → List UInt8
  | .char => [0x63, 0x68, 0x61, 0x72]
  | .short => [0x73, 0x68, 0x6F, 0x72, 0x74]
  | .int => [0x69, 0x6E, 0x74]

end AssignType

/-- One assignment, of so many characters of the string. -/
structure Assignment where
  type : AssignType
  assignIdx : ℕ
  sizeToWrite : ℕ
  literal : List UInt8

/-- What is put into the stream at a time: an assignment, or "&". -/
inductive Piece
  | assign (a : Assignment)
  | amp

def escapedNul : List UInt8 := [0x5C, 0x30]

/-- `strValue`: the buffer from its end. In front of a null its escape is put. -/
def strValue (buffer : List UInt8) : List UInt8 :=
  buffer.reverse.flatMap fun cCur => if cCur = 0 then escapedNul ++ [cCur] else [cCur]

/-- `(*((type*)&pointStr[assignIdx])='literal')` -/
def Assignment.text (pointStr : List UInt8) (a : Assignment) : List UInt8 :=
  [0x28, 0x2A, 0x28, 0x28] ++ a.type.name ++ [0x2A, 0x29, 0x26] ++ pointStr ++ [0x5B] ++
    decimal a.assignIdx ++ [0x5D, 0x29, 0x3D, quote] ++ a.literal ++ [quote, 0x29]

def Piece.text (pointStr : List UInt8) : Piece → List UInt8
  | .assign a => a.text pointStr
  | .amp => [0x26]

structure StdString where
  bytes : List UInt8
  fits : bytes.length < 2 ^ 32

/-- The loop that fills a buffer of so many characters from `toAssign[idx]` on: what it has
written, and `idx` after it. -/
def fill (toAssign : List UInt8) : ℕ → ℕ → List UInt8 × ℕ
  | 0, idx => ([], idx)
  | size + 1, idx =>
      let pCur := toAssign.getD idx 0
      if idx + 1 ≥ toAssign.length then ([pCur], idx + 1)
      else
        let (written, idx) := fill toAssign size (idx + 1)
        (pCur :: written, idx)

/-- `Byte3Operation`; `uninit` is what the second character of its buffer is before. -/
def byte3Operation (uninit : UInt8) (toAssign : List UInt8) (idx assignIdx : ℕ) :
    List Piece :=
  let written := (fill toAssign 2 idx).1
  let buffer := (written ++ [uninit]).take 2
  [.assign ⟨.short, assignIdx, written.length, strValue buffer⟩, .amp,
    .assign ⟨.char, assignIdx + 2, 0, escapedNul⟩]

theorem lt_fill (toAssign : List UInt8) (size idx : ℕ) :
    idx < (fill toAssign (size + 1) idx).2 := by
  induction size generalizing idx with
  | zero =>
      simp only [fill]
      split <;> exact Nat.lt_succ_self idx
  | succ size ih =>
      rw [fill]
      simp only
      split
      · exact Nat.lt_succ_self idx
      · exact (Nat.lt_succ_self idx).trans (ih (idx + 1))

def assignLoop (uninit : UInt8) (toAssign : List UInt8) (idx assignIdx : ℕ)
    (lenOfPtr : UInt32) : List Piece :=
  if idx < toAssign.length then
    if 0 ≥ lenOfPtr then []
    else if lenOfPtr = 3 then byte3Operation uninit toAssign idx assignIdx
    else
      let written := (fill toAssign 4 idx).1
      let sizeToWrite := written.length
      let buffer := written ++ List.replicate (4 - sizeToWrite) 0
      let type := AssignType.ofSize sizeToWrite
      let separator := if (fill toAssign 4 idx).2 < toAssign.length then [Piece.amp] else []
      .assign ⟨type, assignIdx, sizeToWrite, strValue buffer⟩ :: separator ++
        assignLoop uninit toAssign (fill toAssign 4 idx).2 (assignIdx + type.width)
          (lenOfPtr - .ofNat sizeToWrite)
  else []
termination_by toAssign.length - idx
decreasing_by
  have hlt : idx < (fill toAssign 4 idx).2 := lt_fill toAssign 3 idx
  omega

/-- `operator()`: what it puts into the stream. -/
def debugAssign (uninit : UInt8) (lenOfPtr : UInt32) (toAssign : StdString) : List Piece :=
  assignLoop uninit toAssign.bytes 0 0 lenOfPtr

def debugText (uninit : UInt8) (pointStr : List UInt8) (lenOfPtr : UInt32)
    (toAssign : StdString) : List UInt8 :=
  (debugAssign uninit lenOfPtr toAssign).flatMap (Piece.text pointStr)

/-- "m_szToCharName", the array of sixteen characters that `DoWork` assigns to. -/
def m_szToCharName : List UInt8 :=
  [0x6D, 0x5F, 0x73, 0x7A, 0x54, 0x6F, 0x43, 0x68, 0x61, 0x72, 0x4E, 0x61, 0x6D, 0x65]

/-- "My Name Is Dennies", what it assigns. -/
def myNameIsDennies : StdString where
  bytes := [0x4D, 0x79, 0x20, 0x4E, 0x61, 0x6D, 0x65, 0x20, 0x49, 0x73, 0x20, 0x44, 0x65, 0x6E,
    0x6E, 0x69, 0x65, 0x73]
  fits := by decide

/-! The loop over what is left of the string. -/

theorem fill_eq {toAssign : List UInt8} (size : ℕ) {idx : ℕ} (hidx : idx < toAssign.length) :
    fill toAssign size idx =
      ((toAssign.drop idx).take size, min (idx + size) toAssign.length) := by
  induction size generalizing idx with
  | zero =>
      rw [fill, List.take_zero, Nat.add_zero, Nat.min_eq_left hidx.le]
  | succ size ih =>
      have hdrop : toAssign.drop idx = toAssign[idx] :: toAssign.drop (idx + 1) :=
        List.drop_eq_getElem_cons hidx
      have hget : toAssign.getD idx 0 = toAssign[idx] := by
        rw [List.getD_eq_getElem?_getD, List.getElem?_eq_getElem hidx, Option.getD_some]
      rw [fill, hdrop, List.take_succ_cons, hget]
      simp only
      split
      · rename_i hend
        rw [List.drop_of_length_le hend, List.take_nil, Nat.min_eq_right (by omega)]
        congr 1
        omega
      · rename_i hmore
        rw [ih (by omega)]
        congr 1
        omega

/-- Four characters, or the last ones with zeros behind them. -/
def chunk (rest : List UInt8) (assignIdx : ℕ) : Assignment :=
  let buffer := rest.take 4 ++ List.replicate (4 - rest.length) 0
  ⟨.ofSize (min 4 rest.length), assignIdx, min 4 rest.length, strValue buffer⟩

def lastThree (uninit : UInt8) (rest : List UInt8) (assignIdx : ℕ) : List Assignment :=
  let buffer := (rest.take 2 ++ [uninit]).take 2
  [⟨.short, assignIdx, min 2 rest.length, strValue buffer⟩,
    ⟨.char, assignIdx + 2, 0, escapedNul⟩]

def joined (as : List Assignment) : List Piece :=
  (as.map .assign).intersperse .amp

/-- The loop of `operator()`, as a recursion on what is left of the string. -/
def assignRest (uninit : UInt8) (rest : List UInt8) (assignIdx : ℕ) (lenOfPtr : UInt32) :
    List Piece :=
  if rest = [] ∨ lenOfPtr = 0 then []
  else if lenOfPtr = 3 then joined (lastThree uninit rest assignIdx)
  else if h : rest.length ≤ 4 then [.assign (chunk rest assignIdx)]
  else .assign (chunk rest assignIdx) :: .amp ::
    assignRest uninit (rest.drop 4) (assignIdx + 4) (lenOfPtr - 4)
termination_by rest.length
decreasing_by
  rw [List.length_drop]
  omega

theorem chunk_of_written (rest : List UInt8) (assignIdx : ℕ) :
    ⟨.ofSize (rest.take 4).length, assignIdx, (rest.take 4).length,
      strValue (rest.take 4 ++ List.replicate (4 - (rest.take 4).length) 0)⟩ =
      chunk rest assignIdx := by
  have hpad : 4 - min 4 rest.length = 4 - rest.length := by omega
  rw [List.length_take, hpad]
  rfl

theorem assignLoop_eq (uninit : UInt8) (toAssign : List UInt8) (idx assignIdx : ℕ)
    (lenOfPtr : UInt32) :
    assignLoop uninit toAssign idx assignIdx lenOfPtr =
      assignRest uninit (toAssign.drop idx) assignIdx lenOfPtr := by
  induction hm : toAssign.length - idx using Nat.strong_induction_on
    generalizing idx assignIdx lenOfPtr with
  | _ m ih =>
    rw [assignLoop, assignRest]
    by_cases hidx : idx < toAssign.length
    · have hrest : toAssign.drop idx ≠ [] := by
        rw [Ne, List.drop_eq_nil_iff]
        omega
      have hzero : (0 ≥ lenOfPtr) ↔ lenOfPtr = 0 := UInt32.le_zero_iff
      simp only [if_pos hidx, hzero, hrest, false_or]
      by_cases h0 : lenOfPtr = 0
      · rw [if_pos h0, if_pos h0]
      rw [if_neg h0, if_neg h0]
      by_cases h3 : lenOfPtr = 3
      · rw [if_pos h3, if_pos h3, byte3Operation, fill_eq 2 hidx, List.length_take]
        rfl
      rw [if_neg h3, if_neg h3, fill_eq 4 hidx]
      simp only [chunk_of_written]
      rw [List.length_take, List.length_drop]
      by_cases hlast : toAssign.length - idx ≤ 4
      · rw [dif_pos hlast, if_neg (by omega), assignLoop, if_neg (by omega)]
        rfl
      · have hfour : min 4 (toAssign.length - idx) = 4 := Nat.min_eq_left (by omega)
        have hend : min (idx + 4) toAssign.length = idx + 4 := Nat.min_eq_left (by omega)
        rw [dif_neg hlast, if_pos (by omega), List.drop_drop, hfour, hend,
          ih _ (by omega) _ _ _ rfl]
        rfl
    · rw [if_neg hidx, if_pos (.inl (List.drop_of_length_le (by omega)))]

end TestCodes.TestUnitsNew
