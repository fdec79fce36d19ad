import TestCodes.ZoneMsg.ZoneMsgDispatcher

/-! A dispatch reaches the handler that is registered for the id, and no other, with the
message split behind its struct. -/
namespace TestCodes.ZoneMsg

section
variable {G : GameTypes} {Fp Size Shape : Type} {d : CZoneMsgDispatcher G Fp Size}

namespace CZoneMsgDispatcher

theorem dispatch_empty {wID : UInt16} (h : d.vecHandlers.get wID.toNat = none)
    (world : GameWorld G Fp Size) (pFrom : Option G.CVSock) (pMsg : CharPtr)
    (dwMsgSize : UInt32) : d.dispatch world pFrom wID pMsg dwMsgSize = refused := by
  unfold dispatch
  split
  · rename_i hlt
    rw [Slots.get, List.getElem?_eq_getElem hlt] at h
    split
    · rfl
    · rename_i hf
      rw [hf] at h
      cases h
  · rfl

theorem dispatch_filled {wID : UInt16} {f : FnMsgHandler G Fp Size}
    (h : d.vecHandlers.get wID.toNat = some f)
    (world : GameWorld G Fp Size) (pFrom : Option G.CVSock) (pMsg : CharPtr)
    (dwMsgSize : UInt32) :
    d.dispatch world pFrom wID pMsg dwMsgSize = f world pFrom pMsg dwMsgSize := by
  have hget := Option.join_eq_some_iff.mp h
  obtain ⟨hlt, hf⟩ := List.getElem?_eq_some_iff.mp hget
  unfold dispatch
  rw [dif_pos hlt]
  split
  · rename_i hnone
    rw [hf] at hnone
    cases hnone
  · rename_i g hg
    rw [hf] at hg
    rw [Option.some.inj hg]

/-- Registrations under distinct ids all succeed. A dispatch goes to the trampoline that
is bound under the id, and is refused without one. -/
theorem registered_dispatch
    (bound : Option G.CVtZoneBase → Shape → Fp → UInt32 → FnMsgHandler G Fp Size)
    (pOwner : Option G.CVtZoneBase) {regs : List (Registration Shape Fp)}
    (distinct : (regs.map Registration.wID).Nodup) :
    ∃ d, registered bound pOwner regs = some d ∧
      ∀ (world : GameWorld G Fp Size) pFrom wID pMsg dwMsgSize,
        ((∀ r ∈ regs, r.wID ≠ wID) →
          d.dispatch world pFrom wID pMsg dwMsgSize = refused) ∧
        ∀ r ∈ regs, r.wID = wID → d.dispatch world pFrom wID pMsg dwMsgSize =
          bound pOwner r.shape r.fpCall r.sizeofTMsg world pFrom pMsg dwMsgSize := by
  have hids : (regs.map fun r => r.wID.toNat).Nodup := by
    have hinj : Function.Injective UInt16.toNat := fun _ _ h => UInt16.toNat_inj.mp h
    have hmap := distinct.map hinj
    rwa [List.map_map] at hmap
  obtain ⟨t, hrun, hfilled, hrest⟩ := Slots.registers_distinct
    (f := fun r => bound pOwner r.shape r.fpCall r.sizeofTMsg) (t := ([] : Slots _)) hids
    fun _ _ => rfl
  refine ⟨⟨t, pOwner⟩, ?_, fun world pFrom wID pMsg dwMsgSize => ⟨fun hnone => ?_, ?_⟩⟩
  · have hstep : ∀ (t : Slots (FnMsgHandler G Fp Size)) (r : Registration Shape Fp),
        registerMsg bound ⟨t, pOwner⟩ r =
          (Slots.register t r.wID.toNat (bound pOwner r.shape r.fpCall r.sizeofTMsg)).map
            (⟨·, pOwner⟩) := fun _ _ => rfl
    exact (Machine.run_map _ hstep [] regs).trans (congrArg _ hrun)
  · refine dispatch_empty ?_ world pFrom pMsg dwMsgSize
    rw [hrest _ fun r hr h => hnone r hr (UInt16.toNat_inj.mp h)]
    rfl
  · rintro r hr rfl
    exact dispatch_filled (hfilled r hr) world pFrom pMsg dwMsgSize

end CZoneMsgDispatcher
end

section
variable {G : GameTypes} {Fp : Type}

/-- What a handler of the shape gets besides, if it is there. -/
def CallShape.args (pSvr : Option G.CVtZoneBase) (pFrom : Option G.CVSock) : CallShape → Args G
  | .call3 => .call3 pSvr
  | .call4 => .call4 pSvr pFrom

def Shape.args (world : GameWorld G Fp UInt32) (pSvr : Option G.CVtZoneBase)
    (pFrom : Option G.CVSock) : Shape → Option (Args G)
  | .callOriginal => some (.callOriginal pFrom)
  | .call shape => some (shape.args pSvr pFrom)
  | .recipient => (getRecipient world pSvr pFrom).map .recipient

def Shape.Unreceived (world : GameWorld G Fp UInt32) (pSvr : Option G.CVtZoneBase)
    (pFrom : Option G.CVSock) (shape : Shape) : Prop :=
  shape = .recipient ∧ getRecipient world pSvr pFrom = none

/-- The extra part is what the message has behind its struct, null when that is nothing. -/
structure Splits (pMsg : CharPtr) (sizeofTMsg dwMsgSize : UInt32) (call : Call G Fp UInt32) :
    Prop where
  size : call.extraSize.toNat = dwMsgSize.toNat - sizeofTMsg.toNat
  null : call.pExtra = none ↔ call.extraSize = 0
  start : ∀ p, call.pExtra = some p → p = pMsg.add sizeofTMsg.toNat

theorem CallShape.trampoline_eq {Size : Type} (cast : UInt32 → Size)
    (pSvr : Option G.CVtZoneBase) (shape : CallShape) :
    (shape.trampoline cast pSvr : Fp → UInt32 → FnMsgHandler G Fp Size) =
      ZoneMsg.trampoline cast fun _ pFrom => some (shape.args pSvr pFrom) := by
  cases shape <;> rfl

theorem Shape.trampoline_eq (cast : UInt32 → UInt32) (pSvr : Option G.CVtZoneBase)
    (shape : Shape) :
    (shape.trampoline cast pSvr : Fp → UInt32 → FnMsgHandler G Fp UInt32) =
      ZoneMsg.trampoline cast fun world pFrom => shape.args world pSvr pFrom := by
  cases shape with
  | callOriginal => rfl
  | call shape => exact shape.trampoline_eq cast pSvr
  | recipient => rfl

theorem Shape.args_eq_none {world : GameWorld G Fp UInt32} {pSvr : Option G.CVtZoneBase}
    {pFrom : Option G.CVSock} {shape : Shape} :
    shape.args world pSvr pFrom = none ↔ shape.Unreceived world pSvr pFrom := by
  cases shape with
  | callOriginal => exact iff_of_false nofun (fun h => nomatch h.1)
  | call shape => exact iff_of_false nofun (fun h => nomatch h.1)
  | recipient =>
      rw [Shape.args, Option.map_eq_none_iff]
      exact ⟨fun h => ⟨rfl, h⟩, And.right⟩

theorem CharPtr.extra_eq_none {pMsg : CharPtr} {sizeofTMsg dwMsgSize : UInt32}
    (hle : sizeofTMsg ≤ dwMsgSize) :
    pMsg.extra sizeofTMsg dwMsgSize = none ↔ dwMsgSize - sizeofTMsg = 0 := by
  have hsub := UInt32.toNat_sub_of_le dwMsgSize sizeofTMsg hle
  rw [UInt32.le_iff_toNat_le] at hle
  rw [← UInt32.toNat_inj, hsub, CharPtr.extra]
  split
  · rename_i hlt
    rw [gt_iff_lt, UInt32.lt_iff_toNat_lt] at hlt
    simp only [reduceCtorEq, UInt32.toNat_zero, false_iff]
    omega
  · rename_i hge
    rw [gt_iff_lt, UInt32.lt_iff_toNat_lt] at hge
    simp only [UInt32.toNat_zero, true_iff]
    omega

theorem CharPtr.extra_start {pMsg p : CharPtr} {sizeofTMsg dwMsgSize : UInt32}
    (h : pMsg.extra sizeofTMsg dwMsgSize = some p) : p = pMsg.add sizeofTMsg.toNat := by
  unfold CharPtr.extra at h
  split at h
  · exact (Option.some.inj h).symm
  · cases h

theorem trampoline_spec
    (args : GameWorld G Fp UInt32 → Option G.CVSock → Option (Args G)) (fpCall : Fp)
    (sizeofTMsg : UInt32) (world : GameWorld G Fp UInt32) (pFrom : Option G.CVSock)
    (pMsg : CharPtr) (dwMsgSize : UInt32) :
    (dwMsgSize < sizeofTMsg ∨ args world pFrom = none →
      trampoline id args fpCall sizeofTMsg world pFrom pMsg dwMsgSize = refused) ∧
    (¬ (dwMsgSize < sizeofTMsg ∨ args world pFrom = none) → ∃ call,
      trampoline id args fpCall sizeofTMsg world pFrom pMsg dwMsgSize =
        (world.handler call, [call]) ∧
      call.fpCall = fpCall ∧ call.pMsg = pMsg ∧ args world pFrom = some call.args ∧
      Splits pMsg sizeofTMsg dwMsgSize call) := by
  unfold trampoline
  by_cases hsize : dwMsgSize < sizeofTMsg
  · exact ⟨fun _ => if_pos hsize, fun h => absurd (.inl hsize) h⟩
  · rw [if_neg hsize]
    cases hargs : args world pFrom with
    | none => exact ⟨fun _ => rfl, fun h => absurd (.inr rfl) h⟩
    | some a =>
        have hle : sizeofTMsg ≤ dwMsgSize := UInt32.not_lt.mp hsize
        refine ⟨fun h => ?_, fun _ => ⟨_, rfl, rfl, rfl, rfl, ?_⟩⟩
        · rcases h with h | h
          · exact absurd h hsize
          · cases h
        · exact ⟨UInt32.toNat_sub_of_le dwMsgSize sizeofTMsg hle, CharPtr.extra_eq_none hle,
            fun p => CharPtr.extra_start⟩

/-- Under distinct ids, a dispatch calls no handler and returns false when the id is not
registered, the message too short or its recipient missing; else it calls the handler
registered for the id, once. -/
theorem dispatch_exact (pOwner : Option G.CVtZoneBase) (regs : List (Registration Shape Fp))
    (distinct : (regs.map Registration.wID).Nodup) :
    ∃ d : CZoneMsgDispatcher G Fp UInt32, registered20140520 pOwner regs = some d ∧
      ∀ (world : GameWorld G Fp UInt32) pFrom wID pMsg dwMsgSize,
        ((∀ r ∈ regs, r.wID ≠ wID) →
          d.dispatch world pFrom wID pMsg dwMsgSize = (FALSE, [])) ∧
        ∀ r ∈ regs, r.wID = wID →
          (dwMsgSize < r.sizeofTMsg ∨ r.shape.Unreceived world pOwner pFrom →
            d.dispatch world pFrom wID pMsg dwMsgSize = (FALSE, [])) ∧
          (¬ (dwMsgSize < r.sizeofTMsg ∨ r.shape.Unreceived world pOwner pFrom) → ∃ call,
            d.dispatch world pFrom wID pMsg dwMsgSize = (world.handler call, [call]) ∧
            call.fpCall = r.fpCall ∧ call.pMsg = pMsg ∧
            r.shape.args world pOwner pFrom = some call.args ∧
            Splits pMsg r.sizeofTMsg dwMsgSize call) := by
  obtain ⟨d, hd, hdispatch⟩ :=
    CZoneMsgDispatcher.registered_dispatch (Shape.trampoline id) pOwner distinct
  refine ⟨d, hd, fun world pFrom wID pMsg dwMsgSize => ?_⟩
  obtain ⟨hnone, hsome⟩ := hdispatch world pFrom wID pMsg dwMsgSize
  refine ⟨hnone, fun r hr hid => ?_⟩
  rw [hsome r hr hid, Shape.trampoline_eq, ← Shape.args_eq_none]
  exact trampoline_spec (fun world pFrom => r.shape.args world pOwner pFrom) _ _ _ _ _ _

end

abbrev oneZone : GameTypes := ⟨Unit, Unit, Bool, Unit, some⟩

def onePlayer {Size : Type} : GameWorld oneZone String Size where
  getPlayerCharBySock _ pSock := if pSock = true then some () else none
  handler call := if call.pExtra.isSome then 1 else 2

/-- Four registrations with gaps, one at the largest id. -/
def fourShapes : List (Registration Shape String) :=
  [⟨"stage", .call .call3, 4, 65535⟩, ⟨"invite", .recipient, 8, 3⟩, ⟨"move", .callOriginal, 2, 9⟩,
    ⟨"chat", .call .call4, 6, 0⟩]

theorem dispatch_exact_four :
    ∃ d : CZoneMsgDispatcher oneZone String UInt32,
      registered20140520 (some ()) fourShapes = some d ∧ ∀ pMsg,
        d.dispatch onePlayer (some false) 3 pMsg 8 = (FALSE, []) ∧
        ∃ call, d.dispatch onePlayer (some true) 3 pMsg 8 = (onePlayer.handler call, [call]) ∧
          call.fpCall = "invite" ∧ Splits pMsg 8 8 call := by
  obtain ⟨d, hd, h⟩ :=
    dispatch_exact (G := oneZone) (some ()) fourShapes (by decide)
  have hr : (⟨"invite", .recipient, 8, 3⟩ : Registration Shape String) ∈ fourShapes := by
    simp [fourShapes]
  refine ⟨d, hd, fun pMsg => ⟨((h onePlayer (some false) 3 pMsg 8).2 _ hr rfl).1 ?_, ?_⟩⟩
  · exact .inr ⟨rfl, rfl⟩
  · obtain ⟨call, hcall, hfp, -, -, hsplit⟩ :=
      ((h onePlayer (some true) 3 pMsg 8).2 _ hr rfl).2
        (not_or.mpr ⟨by decide, fun hnone => nomatch hnone.2⟩)
    exact ⟨call, hcall, hfp, hsplit⟩

end TestCodes.ZoneMsg
