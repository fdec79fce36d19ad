import TestCodes.Lib.Tlv
import Mathlib.Data.List.Nodup
import Mathlib.Data.List.Pairwise

/-! The registration of a struct's members for the BLOB: their codes, where they
lie and how large they are. The compiler refuses a form that is not well formed. -/
namespace TestCodes.TestUnitsNew

def maxLen_CharExtraDataBinSize : ℕ := 1024

structure DataInfo where
  twoCC : UInt16
  offset : ℕ
  sizeOfData : ℕ
  deriving DecidableEq

def DataInfo.Disjoint (a b : DataInfo) : Prop :=
  a.offset + a.sizeOfData ≤ b.offset ∨ b.offset + b.sizeOfData ≤ a.offset

instance : DecidableRel DataInfo.Disjoint := fun _ _ => inferInstanceAs (Decidable (_ ∨ _))

instance : Std.Symm DataInfo.Disjoint := ⟨fun _ _ => Or.symm⟩

def sizeofDatas : List DataInfo → ℕ
  | [] => 0
  | info :: infos => info.sizeOfData + sizeofDatas infos

/-- Four bytes of header for each member, and the members. -/
def lenOfData (infos : List DataInfo) : ℕ := infos.length * 4 + sizeofDatas infos

/-- The REG_DATA and UNREG_OLDDATA lines over a struct of `structSize` bytes. A
code that occurs twice is a `case` label that occurs twice. -/
structure DataTable (structSize : ℕ) where
  regData : List DataInfo
  unregOldData : List UInt16
  codes_nodup : (regData.map DataInfo.twoCC ++ unregOldData).Nodup
  inside : ∀ info ∈ regData, info.offset + info.sizeOfData ≤ structSize

/-- A table for which the static_asserts hold, of distinct members, with no code
that is the zero behind the data. -/
structure DataForm (structSize : ℕ) extends DataTable structSize where
  codes_ne_zero : ∀ info ∈ regData, info.twoCC ≠ 0
  dataLen : lenOfData regData < maxLen_CharExtraDataBinSize
  size_lt : ∀ info ∈ regData, info.sizeOfData < 1024 * 64
  disjoint : regData.Pairwise DataInfo.Disjoint

def dwSaveCoolTime : DataInfo := ⟨0x3030, 0, 280⟩

def stQuickSlotInfo : DataInfo := ⟨0x3031, 280, 296⟩

def btParts : DataInfo := ⟨0x0301, 576, 12⟩

def baseStatus : DataInfo := ⟨0x3033, 588, 8⟩

/-- `STVtCharData_DBForm` as BLOBAgentDataForm.h registers it. -/
def charDataForm : DataForm 596 where
  regData := [dwSaveCoolTime, stQuickSlotInfo, btParts, baseStatus]
  unregOldData := [0x0302]
  codes_nodup := by decide
  codes_ne_zero := by decide
  dataLen := by decide
  size_lt := by decide
  inside := by decide
  disjoint := by decide

@[simp] theorem lenOfData_nil : lenOfData [] = 0 := rfl

theorem lenOfData_cons (info : DataInfo) (infos : List DataInfo) :
    lenOfData (info :: infos) = 4 + info.sizeOfData + lenOfData infos := by
  simp only [lenOfData, sizeofDatas, List.length_cons]
  omega

namespace DataTable
variable {n : ℕ} (T : DataTable n)

theorem info_unique {a b : DataInfo} (ha : a ∈ T.regData) (hb : b ∈ T.regData)
    (h : a.twoCC = b.twoCC) : a = b :=
  List.inj_on_of_nodup_map (List.Nodup.of_append_left T.codes_nodup) ha hb h

theorem not_retired {info : DataInfo} (h : info ∈ T.regData) : info.twoCC ∉ T.unregOldData :=
  fun hold => List.disjoint_of_nodup_append T.codes_nodup (List.mem_map_of_mem h) hold

end DataTable

theorem DataForm.disjoint_of_ne {n : ℕ} (T : DataForm n) {a b : DataInfo}
    (ha : a ∈ T.regData) (hb : b ∈ T.regData) (h : a ≠ b) : a.Disjoint b :=
  T.disjoint.forall ha hb h

end TestCodes.TestUnitsNew
