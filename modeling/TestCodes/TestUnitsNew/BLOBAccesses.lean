import TestCodes.TestUnitsNew.BLOBAgent

/-! What `FromBLOB` touches, round by round. The buffer may hold anything. -/
namespace TestCodes.TestUnitsNew

/-- `len` bytes of `src` read, or of the struct written, from `pos` on. -/
inductive Access where
  | read (pos len : ℕ)
  | write (pos len : ℕ)
  deriving DecidableEq

def headerReads (pHeader : ℕ) : List Access := [.read pHeader 2, .read (pHeader + 2) 2]

namespace DataTable
variable {n : ℕ} (T : DataTable n)

/-- `fromBLOBLoop` with its accesses; `none` when it is not done after so many rounds. -/
def fromBLOBRounds (src : SqlChars) : ℕ → ℕ → Block n → Option (Block n × List Access)
  | 0, _, _ => none
  | rounds + 1, pCurr, dest =>
      if pCurr + 4 < maxLen_CharExtraDataBinSize then
        let wHead := UInt16.ofNat (wordAt src.bytes pCurr)
        let dataSize := wordAt src.bytes (pCurr + 2)
        if wHead = 0 then some (dest, [.read pCurr 2])
        else if pCurr + 4 + dataSize > maxLen_CharExtraDataBinSize then
          some (dest, headerReads pCurr)
        else
          match T.getDataInfo wHead with
          | none =>
              (fromBLOBRounds src rounds (pCurr + 4 + dataSize) dest).map
                (.map id (headerReads pCurr ++ ·))
          | some pDataInfo =>
              if pDataInfo.sizeOfData ≠ dataSize then
                (fromBLOBRounds src rounds (pCurr + 4 + dataSize) dest).map
                  (.map id (headerReads pCurr ++ ·))
              else
                match T.getDataPtr wHead with
                | none => some (dest, headerReads pCurr)
                | some pToWrite =>
                    (fromBLOBRounds src rounds (pCurr + 4 + dataSize)
                      (dest.write pToWrite (src.read (pCurr + 4) dataSize))).map
                      (.map id (headerReads pCurr ++
                        [.read (pCurr + 4) dataSize, .write pToWrite dataSize] ++ ·))
      else some (dest, [])

/-- Reads stay in the buffer, and a write is for the whole of one registered member. -/
def Allowed : Access → Prop
  | .read pos len => pos + len ≤ maxLen_CharExtraDataBinSize
  | .write pos len => ∃ info ∈ T.regData, pos = info.offset ∧ len = info.sizeOfData

/-- The accesses are allowed, and account for every change from one struct to the other. -/
structure Accounts (dest dest' : Block n) (accesses : List Access) : Prop where
  allowed : ∀ a ∈ accesses, T.Allowed a
  frame : ∀ i k, (∀ pos len, .write pos len ∈ accesses → pos + len ≤ i ∨ i + k ≤ pos) →
    dest'.read i k = dest.read i k

variable {T} {src : SqlChars} {dest dest' dest'' : Block n} {accesses later : List Access}

theorem Accounts.refl (h : ∀ a ∈ accesses, T.Allowed a) : T.Accounts dest dest accesses :=
  ⟨h, fun _ _ _ => rfl⟩

theorem Accounts.append (h : T.Accounts dest dest' accesses)
    (h' : T.Accounts dest' dest'' later) : T.Accounts dest dest'' (accesses ++ later) where
  allowed a ha := (List.mem_append.mp ha).elim (h.allowed a) (h'.allowed a)
  frame i k hfree := by
    rw [h'.frame i k fun pos len hw => hfree pos len (List.mem_append_right _ hw)]
    exact h.frame i k fun pos len hw => hfree pos len (List.mem_append_left _ hw)

theorem Accounts.headerReads {pCurr : ℕ} (h : pCurr + 4 < maxLen_CharExtraDataBinSize) :
    T.Accounts dest dest (headerReads pCurr) := by
  apply Accounts.refl
  intro a ha
  have hhead : pCurr + 2 ≤ maxLen_CharExtraDataBinSize := by omega
  have hsize : pCurr + 2 + 2 ≤ maxLen_CharExtraDataBinSize := by omega
  rcases List.mem_cons.mp ha with rfl | ha
  · exact hhead
  · rw [List.mem_singleton.mp ha]
    exact hsize

theorem Accounts.copy {info : DataInfo} {pos : ℕ} (hinfo : info ∈ T.regData)
    (hfit : pos + info.sizeOfData ≤ maxLen_CharExtraDataBinSize) :
    T.Accounts dest (dest.write info.offset (src.read pos info.sizeOfData))
      [.read pos info.sizeOfData, .write info.offset info.sizeOfData] where
  allowed a ha := by
    rcases List.mem_cons.mp ha with rfl | ha
    · exact hfit
    · rw [List.mem_singleton.mp ha]
      exact ⟨info, hinfo, rfl, rfl⟩
  frame i k hfree := by
    apply dest.read_write_of_disjoint
    rw [src.read_length hfit]
    exact hfree _ _ (List.mem_cons_of_mem _ (List.mem_singleton_self _))

theorem Accounts.rounds {result : Option (Block n × List Access)} {final : Block n}
    (h : T.Accounts dest dest' accesses)
    (hrest : ∃ later, result = some (final, later) ∧ T.Accounts dest' final later) :
    ∃ all, result.map (.map id (accesses ++ ·)) = some (final, all) ∧
      T.Accounts dest final all := by
  obtain ⟨later, rfl, hlater⟩ := hrest
  exact ⟨accesses ++ later, rfl, h.append hlater⟩

/-- A round takes at least a header, so that a fourth of the bytes left is enough. -/
theorem fromBLOBRounds_spec (src : SqlChars) (pCurr : ℕ) (dest : Block n) (rounds : ℕ)
    (hpos : 0 < rounds) (henough : maxLen_CharExtraDataBinSize ≤ pCurr + 4 * rounds) :
    ∃ accesses, T.fromBLOBRounds src rounds pCurr dest =
        some (T.fromBLOBLoop src pCurr dest, accesses) ∧
      T.Accounts dest (T.fromBLOBLoop src pCurr dest) accesses := by
  induction rounds generalizing pCurr dest with
  | zero => exact absurd hpos (Nat.lt_irrefl 0)
  | succ rounds ih =>
      rw [fromBLOBRounds, fromBLOBLoop]
      split
      · rename_i hin
        have hheader : T.Accounts dest dest (TestUnitsNew.headerReads pCurr) := .headerReads hin
        have hrest : ∀ size dest', ∃ later,
            T.fromBLOBRounds src rounds (pCurr + 4 + size) dest' =
              some (T.fromBLOBLoop src (pCurr + 4 + size) dest', later) ∧
            T.Accounts dest' (T.fromBLOBLoop src (pCurr + 4 + size) dest') later :=
          fun size dest' => ih _ dest' (by omega) (by omega)
        simp only
        split
        · refine ⟨_, rfl, .refl fun a ha => hheader.allowed a ?_⟩
          exact List.mem_singleton.mp ha ▸ List.mem_cons_self
        · split
          · exact ⟨_, rfl, hheader⟩
          · rename_i hfit
            cases hinfo : T.getDataInfo (UInt16.ofNat (wordAt src.bytes pCurr)) with
            | none => exact hheader.rounds (hrest _ _)
            | some pDataInfo =>
                obtain ⟨hmem, hcode⟩ := T.getDataInfo_eq_some_iff.mp hinfo
                simp only
                split
                · exact hheader.rounds (hrest _ _)
                · rename_i hsame
                  rw [← not_not.mp hsame] at hfit ⊢
                  rw [← hcode, T.getDataPtr_of_mem hmem]
                  exact (hheader.append (.copy hmem (Nat.not_lt.mp hfit))).rounds (hrest _ _)
      · exact ⟨[], rfl, .refl fun a ha => absurd ha List.not_mem_nil⟩

/-- Whatever the buffer holds, a read is done within 256 rounds, reads in the buffer
only and writes whole members only: a range that shares no byte with a member written
keeps its bytes. -/
theorem blob_read_safe (T : DataTable n) (src : SqlChars) (dest : Block n) (more : ℕ) :
    ∃ accesses, T.fromBLOBRounds src (256 + more) 0 dest = some (T.fromBLOB dest src, accesses) ∧
      (∀ pos len, .read pos len ∈ accesses → pos + len ≤ maxLen_CharExtraDataBinSize) ∧
      (∀ pos len, .write pos len ∈ accesses →
        ∃ info ∈ T.regData, pos = info.offset ∧ len = info.sizeOfData) ∧
      ∀ i k, (∀ pos len, .write pos len ∈ accesses → pos + len ≤ i ∨ i + k ≤ pos) →
        (T.fromBLOB dest src).read i k = dest.read i k := by
  have henough : maxLen_CharExtraDataBinSize ≤ 0 + 4 * (256 + more) := by
    unfold maxLen_CharExtraDataBinSize
    omega
  obtain ⟨accesses, hrounds, haccounts⟩ :=
    fromBLOBRounds_spec (T := T) src 0 dest (256 + more) (by omega) henough
  exact ⟨accesses, hrounds, fun pos len => haccounts.allowed (.read pos len),
    fun pos len => haccounts.allowed (.write pos len), haccounts.frame⟩

end DataTable
end TestCodes.TestUnitsNew
