import TestCodes.TestUnitsNew.BLOBAgent
import Mathlib.Data.List.Induction

/-! What a read leaves in each member, and when a write and a read give the struct
back. `ToBLOB` puts nothing behind its last record, so the read goes on into
whatever the buffer held there. -/
namespace TestCodes.TestUnitsNew

/-- The last of the records that the member takes. -/
def DataInfo.lastOf (info : DataInfo) (rs : List Record) : Option Record :=
  rs.reverse.find? info.takes

theorem DataInfo.lastOf_append (info : DataInfo) (rs ss : List Record) :
    info.lastOf (rs ++ ss) = (info.lastOf ss).or (info.lastOf rs) := by
  simp only [lastOf, List.reverse_append, List.find?_append]

theorem DataInfo.lastOf_concat (info : DataInfo) (rs : List Record) (r : Record) :
    info.lastOf (rs ++ [r]) = if info.takes r then some r else info.lastOf rs := by
  rw [lastOf_append, lastOf, List.reverse_singleton, List.find?_singleton]
  split <;> rfl

namespace DataForm
variable {n : ℕ} (T : DataForm n)

theorem read_receive (dest : Block n) {r : Record} {i k : ℕ}
    (h : ∀ info ∈ T.regData, info.takes r →
      info.offset + info.sizeOfData ≤ i ∨ i + k ≤ info.offset) :
    (T.receive dest r).read i k = dest.read i k := by
  cases hm : T.memberOf r with
  | none => rw [T.receive_of_none hm]
  | some info =>
      obtain ⟨hmem, htakes⟩ := T.memberOf_eq_some_iff.mp hm
      rw [T.receive_of_member hm]
      apply dest.read_write_of_disjoint
      rw [← (DataInfo.takes_iff.mp htakes).2]
      exact h info hmem htakes

theorem get_receive {info : DataInfo} (h : info ∈ T.regData) (dest : Block n) (r : Record) :
    info.get (T.receive dest r) = if info.takes r then r.data else info.get dest := by
  split
  · rename_i htakes
    rw [T.receive_of_member (T.memberOf_eq_some_iff.mpr ⟨h, htakes⟩)]
    exact dest.read_write_self (DataInfo.takes_iff.mp htakes).2.symm (T.inside info h)
  · rename_i hother
    apply T.read_receive
    intro other hmem htakes
    apply T.disjoint_of_ne hmem h
    rintro rfl
    exact hother htakes

/-- After any number of records a member holds the last one it takes. -/
theorem get_foldl_receive {info : DataInfo} (h : info ∈ T.regData) (dest : Block n)
    (rs : List Record) : info.get (rs.foldl T.receive dest) =
      ((info.lastOf rs).map Record.data).getD (info.get dest) := by
  induction rs using List.reverseRecOn with
  | nil => rfl
  | append_singleton rs r ih =>
      rw [List.foldl_concat, T.get_receive h, info.lastOf_concat]
      split
      · rfl
      · exact ih

theorem lastOf_recordsOf (src : Block n) (info : { info // info ∈ T.regData })
    {other : DataInfo} (hcode : other.twoCC = info.1.twoCC)
    (hsize : other.sizeOfData = info.1.sizeOfData) :
    other.lastOf (T.recordsOf src) = some (T.record src info) := by
  have htakes : other.takes (T.record src info) :=
    DataInfo.takes_iff.mpr ⟨hcode, hsize.trans (T.get_length info.2 src).symm⟩
  cases hl : other.lastOf (T.recordsOf src) with
  | none =>
      have hmem : T.record src info ∈ (T.recordsOf src).reverse :=
        List.mem_reverse.mpr (List.mem_map_of_mem (List.mem_attach _ info))
      exact absurd htakes (List.find?_eq_none.mp hl _ hmem)
  | some r =>
      obtain ⟨found, -, rfl⟩ := List.mem_map.mp (List.mem_reverse.mp (List.mem_of_find?_eq_some hl))
      have hfound := List.find?_some hl
      have hsame := T.info_unique found.2 info.2
        ((DataInfo.takes_iff.mp hfound).1.symm.trans hcode)
      rw [Subtype.ext hsame]

/-- What a member holds after a write and a read: what stands in the old part of
the buffer wins over what has been written. -/
theorem get_fromBLOB_toBLOB {info : DataInfo} (h : info ∈ T.regData) (dest : SqlChars)
    (src target : Block n) : info.get (T.fromBLOB target (T.toBLOB dest src)) =
      ((info.lastOf (dest.records (lenOfData T.regData))).map Record.data).getD
        (info.get src) := by
  rw [T.fromBLOB_eq_foldl, T.records_toBLOB, T.get_foldl_receive h, info.lastOf_append,
    T.lastOf_recordsOf src ⟨info, h⟩ rfl rfl]
  cases info.lastOf (dest.records (lenOfData T.regData)) with
  | none => rfl
  | some r => rfl

/-- A write and a read give every member back exactly when the last record that the
old part of the buffer holds for a member, if any, holds the same bytes. -/
theorem blob_round_trip_iff (dest : SqlChars) (src target : Block n) :
    (∀ info ∈ T.regData, info.get (T.fromBLOB target (T.toBLOB dest src)) = info.get src) ↔
      ∀ info ∈ T.regData, ∀ r, info.lastOf (dest.records (lenOfData T.regData)) = some r →
        r.data = info.get src := by
  constructor
  · intro h info hmem r hr
    have hget := h info hmem
    rwa [T.get_fromBLOB_toBLOB hmem, hr] at hget
  · intro h info hmem
    rw [T.get_fromBLOB_toBLOB hmem]
    cases hr : info.lastOf (dest.records (lenOfData T.regData)) with
    | none => rfl
    | some r => exact h info hmem r hr

end DataForm

def staleStatus : Record := ⟨0x3033, [1, 0, 0, 0, 1, 0, 0, 0], by decide, by decide⟩

/-- A buffer in which a longer BLOB ended with that record. -/
def staleBuffer : SqlChars where
  bytes := List.replicate 612 0 ++ ([staleStatus].flatMap Record.encode ++ List.replicate 400 0)
  size_eq := by
    simp only [List.length_append, List.length_replicate]
    rfl

theorem staleBuffer_records :
    staleBuffer.records (lenOfData charDataForm.regData) = [staleStatus] := by
  have hlen : lenOfData charDataForm.regData = (List.replicate 612 (0 : UInt8)).length := by
    rw [List.length_replicate]
    rfl
  have hzeros : List.replicate 400 (0 : UInt8) ≠ [] := by
    rw [Ne, List.replicate_eq_nil_iff]
    decide
  rw [Block.records, staleBuffer, hlen, List.drop_left, Record.all_encode_append _ hzeros,
    Record.all_zeros, List.append_nil]

theorem stale_record_read : ¬ ∀ info ∈ charDataForm.regData,
    info.get (charDataForm.fromBLOB (Block.zeroed 596) (charDataForm.toBLOB staleBuffer testData)) =
      info.get testData := by
  intro h
  have hmem : baseStatus ∈ charDataForm.regData := by decide
  have hget := h baseStatus hmem
  rw [charDataForm.get_fromBLOB_toBLOB hmem, staleBuffer_records] at hget
  have htestData : baseStatus.get testData = [78, 0, 0, 0, 89, 0, 0, 0] := by decide +kernel
  rw [htestData] at hget
  revert hget
  decide

end TestCodes.TestUnitsNew
