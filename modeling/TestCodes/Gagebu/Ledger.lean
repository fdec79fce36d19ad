import TestCodes.Lib.Bytes
import TestCodes.Lib.Decimal

/-! The household ledger: a hundred slots of money taken and spent, and a total. It is
saved as text, and opened as memory. -/
namespace TestCodes.Gagebu

def MAX : ℕ := 100

/-- `MONEY`; the flag is a signed bit-field. -/
structure MONEY where
  flag : BitVec 3
  year : Int32
  month : Int32
  day : Int32
  money : Int32
  deriving DecidableEq

def sizeofInt : ℕ := 4

def sizeofMONEY : ℕ := 20

def MONEY.zero : MONEY := ⟨0, 0, 0, 0, 0⟩

/-- The global variables. -/
structure Program where
  mo : List MONEY
  total : Int32
  sizeof_mo : mo.length = MAX

namespace Program

def fresh : Program := ⟨List.replicate MAX .zero, 0, List.length_replicate⟩

/-- `mo[i]` is written; behind the array that is undefined. -/
def store (p : Program) (i : ℕ) (m : MONEY) : Option Program :=
  if i < MAX then some ⟨p.mo.set i m, p.total, List.length_set.trans p.sizeof_mo⟩ else none

def records (p : Program) : List MONEY := p.mo.filter fun m => m.day ≠ 0

end Program

/-- `%d`, and `_itoa_s` in base 10. -/
def intText (value : Int32) : List UInt8 :=
  if value.toInt < 0 then 0x2D :: decimal value.toInt.natAbs else decimal value.toInt.natAbs

def flagName : List (List UInt8) :=
  [[0x4E, 0x55, 0x4C, 0x4C], [0xC1, 0xF6, 0xC3, 0xE2], [0xBC, 0xF6, 0xC0, 0xD4]]

/-- `[%s]%d-%d-%d 금액: %d ` -/
def recordText (name : List UInt8) (m : MONEY) : List UInt8 :=
  0x5B :: (name ++ 0x5D :: (intText m.year ++ 0x2D :: (intText m.month ++ 0x2D ::
    (intText m.day ++ [0x20, 0xB1, 0xDD, 0xBE, 0xD7, 0x3A, 0x20] ++
      (intText m.money ++ [0x20])))))

/-- The text of a record, empty when the flag has no name: it is compared with the count
of the names as a `size_t`. -/
def moneyToString (fromMoney : MONEY) : List UInt8 :=
  match flagName[(fromMoney.flag.signExtend 32).toNat]? with
  | none => []
  | some name => recordText name fromMoney

def fnSave (p : Program) : List UInt8 :=
  intText p.total ++ p.mo.flatMap fun m => if m.day ≠ 0 then moneyToString m else []

def intAt (xs : List UInt8) (i : ℕ) : Int32 := .ofNat (wordAt xs i + 65536 * wordAt xs (i + 2))

def MONEY.ofBytes (xs : List UInt8) : MONEY :=
  ⟨.ofNat 3 (xs.getD 0 0).toNat, intAt xs 4, intAt xs 8, intAt xs 12, intAt xs 16⟩

/-- What `fread` leaves in an item of which the file has only a part; the value of such
an item is not specified. -/
structure PartialItems where
  int : Int32 → List UInt8 → Int32
  money : MONEY → List UInt8 → MONEY

/-- The loop of `fnOpen` over what is left of the file. A read that comes short sets the
end of the file, and one of nothing leaves the slot as it is. -/
def openLoop (c : PartialItems) (p : Program) (i : ℕ) (rest : List UInt8) : Option Program :=
  if sizeofMONEY ≤ rest.length then
    (p.store i (.ofBytes (rest.take sizeofMONEY))).bind fun p' =>
    openLoop c p' (i + 1) (rest.drop sizeofMONEY)
  else if rest = [] then some p
  else p.mo[i]?.bind fun m => p.store i (c.money m rest)
termination_by rest.length
decreasing_by
  rw [List.length_drop]
  unfold sizeofMONEY at *
  omega

/-- `fnOpen`; no file is the first start of the program. -/
def fnOpen (c : PartialItems) : Option (List UInt8) → Program → Option Program
  | none, p => some p
  | some file, p =>
      if sizeofInt ≤ file.length then
        openLoop c { p with total := intAt file 0 } 0 (file.drop sizeofInt)
      else if file = [] then some p
      else some { p with total := c.int p.total file }

/-- A total and its records, entered in the first slots. -/
structure Ledger where
  total : Int32
  records : List MONEY
  fits : records.length ≤ MAX
  entered : ∀ m ∈ records, m.day ≠ 0 ∧ (m.flag = 1 ∨ m.flag = 2)

def Ledger.program (l : Ledger) : Program where
  mo := l.records ++ List.replicate (MAX - l.records.length) .zero
  total := l.total
  sizeof_mo := by
    rw [List.length_append, List.length_replicate]
    exact Nat.add_sub_of_le l.fits

/-- Saved and opened on a fresh start, the ledger is there again. -/
def Restores (c : PartialItems) (l : Ledger) : Prop :=
  ∃ p, fnOpen c (some (fnSave l.program)) .fresh = some p ∧
    p.total = l.total ∧ p.records = l.records

end TestCodes.Gagebu
