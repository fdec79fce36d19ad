import TestCodes.TestUnitsNew.BLOBAgentDataForm

/-! `CharDBExtraBLOBAgent`: a struct's registered members written to a buffer and
read back from one. Writing lays down one record for each member; reading hands
every record it finds to the member of its code and size. -/
namespace TestCodes.TestUnitsNew

/-- `[type : WORD] [size : WORD]`; the size is cut to a WORD. -/
def dataHeader (twoCC : UInt16) (sizeOfData : ℕ) : List UInt8 :=
  wordBytes twoCC ++ wordBytes (UInt16.ofNat sizeOfData)

theorem dataHeader_length (twoCC : UInt16) (sizeOfData : ℕ) :
    (dataHeader twoCC sizeOfData).length = 4 := rfl

abbrev SqlChars := Block maxLen_CharExtraDataBinSize

def DataInfo.get {n : ℕ} (info : DataInfo) (data : Block n) : List UInt8 :=
  data.read info.offset info.sizeOfData

def DataInfo.takes (info : DataInfo) (r : Record) : Bool :=
  info.twoCC = r.head ∧ info.sizeOfData = r.data.length

theorem DataInfo.takes_iff {info : DataInfo} {r : Record} :
    info.takes r = true ↔ info.twoCC = r.head ∧ info.sizeOfData = r.data.length :=
  decide_eq_true_iff

namespace DataTable
variable {n : ℕ} (T : DataTable n)

/-- A code that is not registered any more is a `case` without information. -/
def getDataInfo (cc : UInt16) : Option DataInfo :=
  if cc ∈ T.unregOldData then none else T.regData.find? fun info => info.twoCC = cc

def getDataPtr (cc : UInt16) : Option ℕ :=
  (T.regData.find? fun info => info.twoCC = cc).map DataInfo.offset

def toBLOBLoop (src : Block n) : List DataInfo → ℕ → SqlChars → SqlChars
  | [], _, dest => dest
  | info :: infos, pToWrite, dest =>
      match T.getDataPtr info.twoCC with
      | none => dest
      | some pData =>
          if pToWrite + 4 + info.sizeOfData < maxLen_CharExtraDataBinSize then
            let dest := dest.write pToWrite (dataHeader info.twoCC info.sizeOfData)
            let dest := dest.write (pToWrite + 4) (src.read pData info.sizeOfData)
            toBLOBLoop src infos (pToWrite + 4 + info.sizeOfData) dest
          else dest

def toBLOB (dest : SqlChars) (src : Block n) : SqlChars := T.toBLOBLoop src T.regData 0 dest

/-- `while (pCurr + sizeof(DATA_HEADER) < pEnd)`. -/
def fromBLOBLoop (src : SqlChars) (pCurr : ℕ) (dest : Block n) : Block n :=
  if pCurr + 4 < maxLen_CharExtraDataBinSize then
    let wHead := UInt16.ofNat (wordAt src.bytes pCurr)
    let dataSize := wordAt src.bytes (pCurr + 2)
    if wHead = 0 then dest
    else if pCurr + 4 + dataSize > maxLen_CharExtraDataBinSize then dest
    else
      match T.getDataInfo wHead with
      | none => fromBLOBLoop src (pCurr + 4 + dataSize) dest
      | some pDataInfo =>
          if pDataInfo.sizeOfData ≠ dataSize then fromBLOBLoop src (pCurr + 4 + dataSize) dest
          else
            match T.getDataPtr wHead with
            | none => dest
            | some pToWrite =>
                fromBLOBLoop src (pCurr + 4 + dataSize)
                  (dest.write pToWrite (src.read (pCurr + 4) dataSize))
  else dest
termination_by maxLen_CharExtraDataBinSize - pCurr

def fromBLOB (dest : Block n) (src : SqlChars) : Block n := T.fromBLOBLoop src 0 dest

theorem getDataInfo_eq_some_iff {cc : UInt16} {info : DataInfo} :
    T.getDataInfo cc = some info ↔ info ∈ T.regData ∧ info.twoCC = cc := by
  constructor
  · intro h
    unfold getDataInfo at h
    split at h
    · cases h
    · exact ⟨List.mem_of_find?_eq_some h, by simpa using List.find?_some h⟩
  · rintro ⟨hmem, rfl⟩
    rw [getDataInfo, if_neg (T.not_retired hmem)]
    cases hf : T.regData.find? fun other => other.twoCC = info.twoCC with
    | none => exact absurd (decide_eq_true rfl) (List.find?_eq_none.mp hf info hmem)
    | some other =>
        have hcode : other.twoCC = info.twoCC := by simpa using List.find?_some hf
        exact congrArg some (T.info_unique (List.mem_of_find?_eq_some hf) hmem hcode)

theorem getDataPtr_of_mem {info : DataInfo} (h : info ∈ T.regData) :
    T.getDataPtr info.twoCC = some info.offset := by
  have hinfo := T.getDataInfo_eq_some_iff.mpr ⟨h, rfl⟩
  rw [getDataInfo, if_neg (T.not_retired h)] at hinfo
  rw [getDataPtr, hinfo, Option.map_some]

def memberOf (r : Record) : Option DataInfo := T.regData.find? fun info => info.takes r

def receive (dest : Block n) (r : Record) : Block n :=
  match T.memberOf r with
  | none => dest
  | some info => dest.write info.offset r.data

theorem receive_of_member {r : Record} {info : DataInfo} (h : T.memberOf r = some info)
    (dest : Block n) : T.receive dest r = dest.write info.offset r.data := by
  rw [receive, h]

theorem receive_of_none {r : Record} (h : T.memberOf r = none) (dest : Block n) :
    T.receive dest r = dest := by
  rw [receive, h]

theorem memberOf_eq_some_iff {r : Record} {info : DataInfo} :
    T.memberOf r = some info ↔ info ∈ T.regData ∧ info.takes r := by
  constructor
  · intro h
    have htakes := List.find?_some h
    exact ⟨List.mem_of_find?_eq_some h, htakes⟩
  · rintro ⟨hmem, htakes⟩
    cases hf : T.memberOf r with
    | none => exact absurd htakes (List.find?_eq_none.mp hf info hmem)
    | some other =>
        have hother := List.find?_some hf
        have hcode := (DataInfo.takes_iff.mp hother).1.trans (DataInfo.takes_iff.mp htakes).1.symm
        exact congrArg some (T.info_unique (List.mem_of_find?_eq_some hf) hmem hcode)

theorem memberOf_eq_none {r : Record}
    (h : ∀ info, T.getDataInfo r.head = some info → info.sizeOfData ≠ r.data.length) :
    T.memberOf r = none := by
  cases hm : T.memberOf r with
  | none => rfl
  | some info =>
      obtain ⟨hmem, htakes⟩ := T.memberOf_eq_some_iff.mp hm
      obtain ⟨hcode, hsize⟩ := DataInfo.takes_iff.mp htakes
      exact absurd hsize (h info (T.getDataInfo_eq_some_iff.mpr ⟨hmem, hcode⟩))

/-- The loop reads the records one by one and stops where they end. -/
theorem fromBLOBLoop_eq_foldl (src : SqlChars) (pCurr : ℕ) (dest : Block n) :
    T.fromBLOBLoop src pCurr dest = (src.records pCurr).foldl T.receive dest := by
  fun_induction fromBLOBLoop T src pCurr dest with
  | case1 pCurr dest _ wHead hzero =>
      rw [Block.records_eq_nil fun _ hne => absurd hzero hne, List.foldl_nil]
  | case2 pCurr dest _ wHead dataSize _ hlong =>
      rw [Block.records_eq_nil fun _ _ => hlong, List.foldl_nil]
  | case3 pCurr dest hin wHead dataSize hne hfit hinfo ih =>
      obtain ⟨r, hall, hhead, hsize, -⟩ := Block.records_eq_cons hin hne (Nat.not_lt.mp hfit)
      have hskip : T.memberOf r = none := by
        apply T.memberOf_eq_none
        intro info hi
        rw [hhead, hinfo] at hi
        cases hi
      rw [ih, hall, List.foldl_cons, T.receive_of_none hskip]
  | case4 pCurr dest hin wHead dataSize hne hfit pDataInfo hinfo hother ih =>
      obtain ⟨r, hall, hhead, hsize, -⟩ := Block.records_eq_cons hin hne (Nat.not_lt.mp hfit)
      have hskip : T.memberOf r = none := by
        apply T.memberOf_eq_none
        intro info hi
        rw [hhead, hinfo] at hi
        cases hi
        rwa [hsize]
      rw [ih, hall, List.foldl_cons, T.receive_of_none hskip]
  | case5 pCurr dest hin wHead dataSize hne hfit pDataInfo hinfo hsame hptr =>
      obtain ⟨hmem, hcode⟩ := T.getDataInfo_eq_some_iff.mp hinfo
      rw [← hcode, T.getDataPtr_of_mem hmem] at hptr
      cases hptr
  | case6 pCurr dest hin wHead dataSize hne hfit pDataInfo hinfo hsame pToWrite hptr ih =>
      obtain ⟨r, hall, hhead, hsize, hdata⟩ :=
        Block.records_eq_cons hin hne (Nat.not_lt.mp hfit)
      obtain ⟨hmem, hcode⟩ := T.getDataInfo_eq_some_iff.mp hinfo
      have hmember : T.memberOf r = some pDataInfo := by
        apply T.memberOf_eq_some_iff.mpr
        exact ⟨hmem, DataInfo.takes_iff.mpr
          ⟨hcode.trans hhead.symm, (not_not.mp hsame).trans hsize.symm⟩⟩
      rw [← hcode, T.getDataPtr_of_mem hmem] at hptr
      rw [ih, hall, List.foldl_cons, T.receive_of_member hmember, hdata, Option.some.inj hptr]
  | case7 pCurr dest hend =>
      rw [Block.records_eq_nil fun hin => absurd hin hend, List.foldl_nil]

theorem fromBLOB_eq_foldl (dest : Block n) (src : SqlChars) :
    T.fromBLOB dest src = (src.records 0).foldl T.receive dest :=
  T.fromBLOBLoop_eq_foldl src 0 dest

theorem get_length {info : DataInfo} (h : info ∈ T.regData) (src : Block n) :
    (info.get src).length = info.sizeOfData :=
  src.read_length (T.inside info h)

end DataTable

namespace DataForm
variable {n : ℕ} (T : DataForm n)

def record (src : Block n) (info : { info // info ∈ T.regData }) : Record where
  head := info.1.twoCC
  data := info.1.get src
  head_ne_zero := T.codes_ne_zero info.1 info.2
  size_lt := by
    rw [T.get_length info.2]
    exact T.size_lt info.1 info.2

def recordsOf (src : Block n) : List Record := T.regData.attach.map (T.record src)

theorem encode_record (src : Block n) (info : { info // info ∈ T.regData }) :
    (T.record src info).encode =
      dataHeader info.1.twoCC info.1.sizeOfData ++ info.1.get src := by
  rw [Record.encode, record, T.get_length info.2, dataHeader, List.append_assoc]

theorem write_record (src : Block n) (info : { info // info ∈ T.regData }) {dest : SqlChars}
    {done rest : List UInt8} (hbytes : dest.bytes = done ++ rest)
    (hfit : 4 + info.1.sizeOfData ≤ rest.length) :
    ((dest.write done.length (dataHeader info.1.twoCC info.1.sizeOfData)).write
        (done.length + 4) (info.1.get src)).bytes =
      done ++ (T.record src info).encode ++ rest.drop (4 + info.1.sizeOfData) := by
  have hsize := T.get_length info.2 src
  have hhead := dest.write_behind hbytes (dataHeader info.1.twoCC info.1.sizeOfData)
    (by rw [dataHeader_length]; omega)
  rw [dataHeader_length] at hhead
  have hdata := Block.write_behind _ hhead (info.1.get src)
    (by rw [hsize, List.length_drop]; omega)
  rw [List.length_append, dataHeader_length, hsize, List.drop_drop, List.append_assoc done,
    ← T.encode_record] at hdata
  exact hdata

theorem toBLOBLoop_bytes (src : Block n) (infos : List { info // info ∈ T.regData })
    {dest : SqlChars} {done rest : List UInt8} (hbytes : dest.bytes = done ++ rest)
    (hfit : done.length + lenOfData (infos.map Subtype.val) < maxLen_CharExtraDataBinSize) :
    (T.toBLOBLoop src (infos.map Subtype.val) done.length dest).bytes =
      done ++ (infos.map (T.record src)).flatMap Record.encode ++
        rest.drop (lenOfData (infos.map Subtype.val)) := by
  induction infos generalizing dest done rest with
  | nil =>
      rw [DataTable.toBLOBLoop.eq_def]
      simpa using hbytes
  | cons info infos ih =>
      rw [List.map_cons, lenOfData_cons] at hfit ⊢
      have hrest : done.length + rest.length = maxLen_CharExtraDataBinSize := by
        rw [← List.length_append, ← hbytes, dest.size_eq]
      have hround := T.write_record src info hbytes (by omega)
      have hdone : (done ++ (T.record src info).encode).length =
          done.length + 4 + info.1.sizeOfData := by
        rw [List.length_append, Record.encode_length, record, T.get_length info.2,
          Nat.add_assoc]
      have hnext := ih hround (by rw [hdone]; omega)
      rw [hdone, List.append_assoc done, List.drop_drop] at hnext
      rw [DataTable.toBLOBLoop, T.getDataPtr_of_mem info.2]
      simp only
      rw [if_pos (by omega), ← DataInfo.get, hnext, List.map_cons, List.flatMap_cons]

/-- The records, and behind them what the buffer held before. -/
theorem toBLOB_bytes (dest : SqlChars) (src : Block n) :
    (T.toBLOB dest src).bytes =
      (T.recordsOf src).flatMap Record.encode ++ dest.bytes.drop (lenOfData T.regData) := by
  have hloop := T.toBLOBLoop_bytes src T.regData.attach (List.nil_append dest.bytes).symm
  rw [List.attach_map_subtype_val] at hloop
  exact hloop (by simpa using T.dataLen)

theorem records_toBLOB (dest : SqlChars) (src : Block n) :
    (T.toBLOB dest src).records 0 = T.recordsOf src ++ dest.records (lenOfData T.regData) := by
  have hrest : dest.bytes.drop (lenOfData T.regData) ≠ [] := by
    apply List.ne_nil_of_length_pos
    have hlen := T.dataLen
    rw [List.length_drop, dest.size_eq]
    omega
  rw [Block.records, List.drop_zero, T.toBLOB_bytes]
  exact Record.all_encode_append _ hrest

end DataForm

/-- `TestData`, as the compiler lays it out. -/
def testData : Block 596 where
  bytes := [1, 0, 0, 0, 2, 0, 0, 0, 3, 0, 0, 0] ++ List.replicate 268 0 ++
    [4, 0, 0, 0, 0x61, 0x62, 0, 0] ++ List.replicate 288 0 ++
    [5, 0x36] ++ List.replicate 10 0 ++ [78, 0, 0, 0, 89, 0, 0, 0]
  size_eq := by
    simp only [List.length_append, List.length_replicate, List.length_cons, List.length_nil]

/-- `DoWork`: neither `sqlChar` nor, before a read, anything else has been put
into the buffer. -/
def doWork (chInput : Char) (sqlChar : SqlChars) (newData : Block 596) : SqlChars × Block 596 :=
  if chInput = 'w' ∨ chInput = 'W' then (charDataForm.toBLOB sqlChar testData, newData)
  else if chInput = 'r' ∨ chInput = 'R' then
    (sqlChar, charDataForm.fromBLOB (Block.zeroed 596) sqlChar)
  else (sqlChar, newData)

end TestCodes.TestUnitsNew
