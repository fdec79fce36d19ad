import TestCodes.TestUnitsNew.BLOBRoundTrip
import Mathlib.Data.List.Perm.Basic

/-! A buffer written under one form and read under another: the members they have
in common are handed over, everything else in the struct stays as it was. -/
namespace TestCodes.TestUnitsNew

/-- The form registers a member of the same code and the same size. -/
def DataForm.Shares {n : ℕ} (T : DataForm n) (info : DataInfo) : Prop :=
  ∃ other ∈ T.regData, other.twoCC = info.twoCC ∧ other.sizeOfData = info.sizeOfData

namespace DataForm
variable {n m : ℕ}

theorem mem_recordsOf {T : DataForm n} {src : Block n} {r : Record} :
    r ∈ T.recordsOf src ↔ ∃ info, T.record src info = r := by
  simp only [recordsOf, List.mem_map, List.mem_attach, true_and]

theorem shares_of_takes (T : DataForm n) {src : Block n} {r : Record} {info : DataInfo}
    (hr : r ∈ T.recordsOf src) (htakes : info.takes r) : T.Shares info := by
  obtain ⟨other, rfl⟩ := mem_recordsOf.mp hr
  obtain ⟨hcode, hsize⟩ := DataInfo.takes_iff.mp htakes
  exact ⟨other.1, other.2, hcode.symm, (hsize.trans (T.get_length other.2 src)).symm⟩

theorem records_toBLOB_zeroed (T : DataForm n) (src : Block n) :
    (T.toBLOB (Block.zeroed _) src).records 0 = T.recordsOf src := by
  rw [T.records_toBLOB, Block.records, Block.zeroed, List.drop_replicate, Record.all_zeros,
    List.append_nil]

theorem fromBLOB_zeroed (T : DataForm n) (T' : DataForm m) (src : Block n) (dest : Block m) :
    T'.fromBLOB dest (T.toBLOB (Block.zeroed _) src) = (T.recordsOf src).foldl T'.receive dest := by
  rw [T'.fromBLOB_eq_foldl, T.records_toBLOB_zeroed]

theorem receive_comm (T : DataForm n) (dest : Block n) {r s : Record} (h : r.head ≠ s.head) :
    T.receive (T.receive dest r) s = T.receive (T.receive dest s) r := by
  cases hr : T.memberOf r with
  | none => rw [T.receive_of_none hr, T.receive_of_none hr]
  | some a =>
      cases hs : T.memberOf s with
      | none => rw [T.receive_of_none hs, T.receive_of_none hs]
      | some b =>
          obtain ⟨ha, hra⟩ := T.memberOf_eq_some_iff.mp hr
          obtain ⟨hb, hsb⟩ := T.memberOf_eq_some_iff.mp hs
          obtain ⟨hacode, hasize⟩ := DataInfo.takes_iff.mp hra
          obtain ⟨hbcode, hbsize⟩ := DataInfo.takes_iff.mp hsb
          have hne : a ≠ b := by
            rintro rfl
            exact h (hacode.symm.trans hbcode)
          have hdisjoint := T.disjoint_of_ne ha hb hne
          rw [DataInfo.Disjoint, hasize, hbsize] at hdisjoint
          simp only [T.receive_of_member hr, T.receive_of_member hs]
          exact dest.write_comm hdisjoint

theorem heads_distinct (T : DataForm n) (src : Block n) {r s : Record} (hr : r ∈ T.recordsOf src)
    (hs : s ∈ T.recordsOf src) (h : r ≠ s) : r.head ≠ s.head := by
  obtain ⟨a, rfl⟩ := mem_recordsOf.mp hr
  obtain ⟨b, rfl⟩ := mem_recordsOf.mp hs
  intro hcode
  exact h (congrArg (T.record src) (Subtype.ext (T.info_unique a.2 b.2 hcode)))

theorem recordsOf_keys (T : DataForm n) (src : Block n) :
    (T.recordsOf src).map (fun r => (r.head, r.data)) =
      T.regData.map fun info => (info.twoCC, info.get src) := by
  calc
    _ = T.regData.attach.map ((fun info => (info.twoCC, info.get src)) ∘ Subtype.val) := by
      rw [recordsOf, List.map_map]
      rfl
    _ = _ := by
      rw [← List.map_map, List.attach_map_subtype_val]

theorem recordsOf_perm {T T' : DataForm n} (h : T'.regData.Perm T.regData) (src : Block n) :
    (T'.recordsOf src).Perm (T.recordsOf src) := by
  have hinj : Function.Injective fun r : Record => (r.head, r.data) := by
    intro r s hrs
    obtain ⟨hhead, hdata⟩ := Prod.mk.inj hrs
    exact Record.ext hhead hdata
  apply (List.map_perm_map_iff hinj).mp
  rw [recordsOf_keys, recordsOf_keys]
  exact h.map _

theorem receive_congr {T T' : DataForm n} (h : T'.regData.Perm T.regData) :
    T'.receive = T.receive := by
  funext dest r
  have hmember : T'.memberOf r = T.memberOf r := by
    apply Option.ext
    intro info
    rw [T'.memberOf_eq_some_iff, T.memberOf_eq_some_iff, h.mem_iff]
  rw [DataTable.receive, DataTable.receive, hmember]

/-- The order of the lines in either form does not matter. -/
theorem fromBLOB_zeroed_perm {T₁ T₁' : DataForm n} {T₂ T₂' : DataForm m}
    (h₁ : T₁'.regData.Perm T₁.regData) (h₂ : T₂'.regData.Perm T₂.regData)
    (s : Block n) (d : Block m) :
    T₂'.fromBLOB d (T₁'.toBLOB (Block.zeroed _) s) =
      T₂.fromBLOB d (T₁.toBLOB (Block.zeroed _) s) := by
  rw [fromBLOB_zeroed, fromBLOB_zeroed, receive_congr h₂]
  apply (recordsOf_perm h₁ s).foldl_eq'
  intro r hr r' hr' dest
  by_cases heq : r = r'
  · rw [heq]
  · exact T₂.receive_comm dest (T₁'.heads_distinct s hr hr' heq)

theorem read_foldl_receive (T : DataForm n) (dest : Block n) (rs : List Record) {i k : ℕ}
    (h : ∀ r ∈ rs, ∀ info ∈ T.regData, info.takes r →
      info.offset + info.sizeOfData ≤ i ∨ i + k ≤ info.offset) :
    (rs.foldl T.receive dest).read i k = dest.read i k := by
  induction rs generalizing dest with
  | nil => rfl
  | cons r rs ih =>
      rw [List.foldl_cons, ih _ fun s hs => h s (List.mem_cons_of_mem r hs)]
      exact T.read_receive dest (h r List.mem_cons_self)

/-- What two forms share is handed over, whatever else is registered in either;
no other byte of the struct changes. -/
theorem blob_schema_evolution (T₁ : DataForm n) (T₂ : DataForm m) (s : Block n) (d : Block m) :
    (∀ info₁ ∈ T₁.regData, ∀ info₂ ∈ T₂.regData,
      info₂.twoCC = info₁.twoCC → info₂.sizeOfData = info₁.sizeOfData →
        info₂.get (T₂.fromBLOB d (T₁.toBLOB (Block.zeroed _) s)) = info₁.get s) ∧
    (∀ info₂ ∈ T₂.regData, ¬T₁.Shares info₂ →
      info₂.get (T₂.fromBLOB d (T₁.toBLOB (Block.zeroed _) s)) = info₂.get d) ∧
    (∀ i k, (∀ info₂ ∈ T₂.regData, T₁.Shares info₂ →
        info₂.offset + info₂.sizeOfData ≤ i ∨ i + k ≤ info₂.offset) →
      (T₂.fromBLOB d (T₁.toBLOB (Block.zeroed _) s)).read i k = d.read i k) ∧
    (∀ (T₁' : DataForm n) (T₂' : DataForm m), T₁'.regData.Perm T₁.regData →
      T₂'.regData.Perm T₂.regData →
        T₂'.fromBLOB d (T₁'.toBLOB (Block.zeroed _) s) =
          T₂.fromBLOB d (T₁.toBLOB (Block.zeroed _) s)) := by
  have hframe : ∀ i k, (∀ info₂ ∈ T₂.regData, T₁.Shares info₂ →
      info₂.offset + info₂.sizeOfData ≤ i ∨ i + k ≤ info₂.offset) →
        (T₂.fromBLOB d (T₁.toBLOB (Block.zeroed _) s)).read i k = d.read i k := by
    intro i k h
    rw [fromBLOB_zeroed]
    apply T₂.read_foldl_receive
    intro r hr info hmem htakes
    exact h info hmem (T₁.shares_of_takes hr htakes)
  refine ⟨?_, ?_, hframe, ?_⟩
  · intro info₁ h₁ info₂ h₂ hcode hsize
    rw [fromBLOB_zeroed, T₂.get_foldl_receive h₂, T₁.lastOf_recordsOf s ⟨info₁, h₁⟩ hcode hsize]
    rfl
  · intro info₂ h₂ hshares
    apply hframe
    intro other hmem hother
    apply T₂.disjoint_of_ne hmem h₂
    rintro rfl
    exact hshares hother
  · intro T₁' T₂' h₁ h₂
    exact fromBLOB_zeroed_perm h₁ h₂ s d

end DataForm
end TestCodes.TestUnitsNew
