import TestCodes.ZoneMsg.Dispatch

/-! The two copies of the dispatcher side by side, on the handlers that both take. -/
namespace TestCodes.ZoneMsg

section
variable {G : GameTypes} {Fp : Type}

/-- The call with its `WORD` read as a `DWORD`. -/
def Call.widen (call : Call G Fp UInt16) : Call G Fp UInt32 :=
  ⟨call.fpCall, call.args, call.pMsg, call.pExtra, call.extraSize.toUInt32⟩

/-- The same handlers, given a `WORD`. -/
def GameWorld.narrow (world : GameWorld G Fp UInt32) : GameWorld G Fp UInt16 :=
  ⟨world.getPlayerCharBySock, fun call => world.handler call.widen⟩

def Outcome.widen (out : Outcome G Fp UInt16) : Outcome G Fp UInt32 :=
  (out.1, out.2.map Call.widen)

/-- The registration in the 20140520 copy. -/
def Registration.widen (r : Registration CallShape Fp) : Registration Shape Fp :=
  ⟨r.fpCall, .call r.shape, r.sizeofTMsg, r.wID⟩

theorem toUInt16_toUInt32_iff (n : UInt32) : n.toUInt16.toUInt32 = n ↔ n.toNat < 65536 := by
  rw [← UInt32.toNat_inj, UInt16.toNat_toUInt32, UInt32.toNat_toUInt16]
  exact ⟨fun h => h ▸ Nat.mod_lt _ (by decide), Nat.mod_eq_of_lt⟩

/-- The trampolines agree unless the extra size does not fit in a `WORD`. -/
theorem trampolines_agree_iff (pSvr : Option G.CVtZoneBase) (shape : CallShape) (fpCall : Fp)
    (sizeofTMsg : UInt32) (world : GameWorld G Fp UInt32) (pFrom : Option G.CVSock)
    (pMsg : CharPtr) (dwMsgSize : UInt32) :
    (shape.trampoline UInt32.toUInt16 pSvr fpCall sizeofTMsg world.narrow pFrom pMsg
        dwMsgSize).widen =
      shape.trampoline id pSvr fpCall sizeofTMsg world pFrom pMsg dwMsgSize ↔
      dwMsgSize.toNat < sizeofTMsg.toNat + 65536 := by
  rw [shape.trampoline_eq, shape.trampoline_eq]
  unfold trampoline
  by_cases hsize : dwMsgSize < sizeofTMsg
  · rw [if_pos hsize, if_pos hsize]
    apply iff_of_true rfl
    rw [UInt32.lt_iff_toNat_lt] at hsize
    omega
  · rw [if_neg hsize, if_neg hsize]
    have hle : sizeofTMsg ≤ dwMsgSize := UInt32.not_lt.mp hsize
    have hsub := UInt32.toNat_sub_of_le dwMsgSize sizeofTMsg hle
    have hfits : dwMsgSize.toNat < sizeofTMsg.toNat + 65536 ↔
        (dwMsgSize - sizeofTMsg).toUInt16.toUInt32 = dwMsgSize - sizeofTMsg := by
      rw [toUInt16_toUInt32_iff, hsub]
      rw [UInt32.le_iff_toNat_le] at hle
      omega
    rw [hfits]
    constructor
    · intro h
      obtain ⟨hcall, -⟩ := List.cons.inj (Prod.mk.inj h).2
      exact congrArg Call.extraSize hcall
    · intro h
      have hcall : (Call.mk fpCall (shape.args pSvr pFrom) pMsg
          (pMsg.extra sizeofTMsg dwMsgSize) (dwMsgSize - sizeofTMsg).toUInt16).widen =
          ⟨fpCall, shape.args pSvr pFrom, pMsg, pMsg.extra sizeofTMsg dwMsgSize,
            dwMsgSize - sizeofTMsg⟩ := by
        rw [Call.widen, h]
      show ((world.handler (Call.widen _), [Call.widen _]) : Outcome G Fp UInt32) = _
      rw [hcall]
      rfl

/-- Registered with the same handlers, the two copies do the same with a message exactly
when the id is not registered or less than 64 KiB stand behind the message struct. -/
theorem copies_agree_iff (pOwner : Option G.CVtZoneBase)
    (regs : List (Registration CallShape Fp)) (distinct : (regs.map Registration.wID).Nodup) :
    ∃ (d : CZoneMsgDispatcher G Fp UInt16) (d' : CZoneMsgDispatcher G Fp UInt32),
      registeredTestUnitsNew pOwner regs = some d ∧
      registered20140520 pOwner (regs.map Registration.widen) = some d' ∧
      ∀ (world : GameWorld G Fp UInt32) pFrom wID pMsg dwMsgSize,
        (d.dispatch world.narrow pFrom wID pMsg dwMsgSize).widen =
          d'.dispatch world pFrom wID pMsg dwMsgSize ↔
        ∀ r ∈ regs, r.wID = wID → dwMsgSize.toNat < r.sizeofTMsg.toNat + 65536 := by
  obtain ⟨d, hd, hword⟩ := CZoneMsgDispatcher.registered_dispatch
    (CallShape.trampoline UInt32.toUInt16) pOwner distinct
  have distinct' : ((regs.map Registration.widen).map Registration.wID).Nodup := by
    rwa [List.map_map]
  obtain ⟨d', hd', hdword⟩ := CZoneMsgDispatcher.registered_dispatch
    (Shape.trampoline id) pOwner distinct'
  refine ⟨d, d', hd, hd', fun world pFrom wID pMsg dwMsgSize => ?_⟩
  obtain ⟨hnone, hsome⟩ := hword world.narrow pFrom wID pMsg dwMsgSize
  obtain ⟨hnone', hsome'⟩ := hdword world pFrom wID pMsg dwMsgSize
  by_cases h : ∃ r ∈ regs, r.wID = wID
  · obtain ⟨r, hr, hid⟩ := h
    rw [hsome r hr hid, hsome' r.widen (List.mem_map_of_mem hr) hid]
    refine (trampolines_agree_iff pOwner r.shape r.fpCall r.sizeofTMsg world pFrom pMsg
      dwMsgSize).trans ⟨fun hfits q hq hqid => ?_, fun hall => hall r hr hid⟩
    rwa [List.inj_on_of_nodup_map distinct hq hr (hqid.trans hid.symm)]
  · have hno : ∀ r ∈ regs, r.wID ≠ wID := fun r hr hid => h ⟨r, hr, hid⟩
    rw [hnone hno, hnone' (List.forall_mem_map.mpr hno)]
    exact iff_of_true rfl fun r hr hid => absurd hid (hno r hr)

end

def stageAndChat : List (Registration CallShape String) :=
  [⟨"stage", .call3, 4, 7⟩, ⟨"chat", .call4, 6, 0⟩]

theorem copies_agree_short :
    ∃ (d : CZoneMsgDispatcher oneZone String UInt16)
        (d' : CZoneMsgDispatcher oneZone String UInt32),
      registeredTestUnitsNew (some ()) stageAndChat = some d ∧
      registered20140520 (some ()) (stageAndChat.map Registration.widen) = some d' ∧
      ∀ pFrom pMsg, (d.dispatch onePlayer.narrow pFrom 7 pMsg 65539).widen =
        d'.dispatch onePlayer pFrom 7 pMsg 65539 := by
  obtain ⟨d, d', hd, hd', h⟩ := copies_agree_iff (G := oneZone) (some ()) stageAndChat (by decide)
  refine ⟨d, d', hd, hd', fun pFrom pMsg => (h onePlayer pFrom 7 pMsg 65539).mpr ?_⟩
  simp [stageAndChat]

/-- A message with 64 KiB behind its struct: the `WORD` says that nothing is there. -/
theorem long_message_cut :
    ¬ ∀ (regs : List (Registration CallShape String)), (regs.map Registration.wID).Nodup →
      ∀ (d : CZoneMsgDispatcher oneZone String UInt16)
        (d' : CZoneMsgDispatcher oneZone String UInt32),
        registeredTestUnitsNew (some ()) regs = some d →
        registered20140520 (some ()) (regs.map Registration.widen) = some d' →
        ∀ (world : GameWorld oneZone String UInt32) pFrom wID pMsg dwMsgSize,
          (d.dispatch world.narrow pFrom wID pMsg dwMsgSize).widen =
            d'.dispatch world pFrom wID pMsg dwMsgSize := by
  intro h
  have heq := h stageAndChat (by decide) _ _ rfl rfl onePlayer none 7 ⟨0, 0⟩ 65540
  exact absurd (congrArg (fun out => out.2.map Call.extraSize) heq) (by decide)

end TestCodes.ZoneMsg
