import TestCodes.SvrGame.HostingInfo

/-! What a LEAVE_HOST releases. A host may serve several stages, and only the first
of its entries is compared with the stage. -/
namespace TestCodes.SvrGame

namespace HostingTable
section
variable {T : Type} [HostingTable T]

/-- The entry of the stage is under the host's key. -/
def Serves (s : T) (gidStage : GID) (lkeyHost : LKEY) : Prop :=
  ∃ info ∈ s, info.gidStage = gidStage ∧ info.lkeyHostConn = lkeyHost

/-- From `s` to `s'` the stage has left its host, and nothing else has changed. -/
structure Released (inv : Invalid) (gidStage : GID) (lkeyHost : LKEY) (s s' : T) : Prop where
  own : Serves s gidStage lkeyHost → ∀ info ∈ s', info.gidStage = gidStage →
    info.lkeyCltConn = inv.lkey ∧ info.lkeyHostConn = inv.lkey
  others : ∀ info, info.gidStage ≠ gidStage → (info ∈ s' ↔ info ∈ s)
  stages : (stages s').Perm (stages s)

end

variable {T : Type} [HostingTable T] [Lawful T] {s s' : T} {gidStage : GID} {lkeyHost : LKEY}
  {info it : HostingInfo}

theorem leaving_none (h : leaving s gidStage lkeyHost = none)
    (hserves : Serves s gidStage lkeyHost) :
    ∃ first, findHostLkey s lkeyHost = some first ∧ first.gidStage ≠ gidStage := by
  obtain ⟨info, hinfo, -, hhost⟩ := hserves
  cases hfind : findHostLkey s lkeyHost with
  | none => exact absurd hhost (findHostLkey_none hfind hinfo)
  | some first =>
      refine ⟨first, rfl, fun hgid => ?_⟩
      rw [leaving, hfind, Option.filter_some, if_pos (by simpa using hgid)] at h
      cases h

theorem stages_replace {value : HostingInfo} (hit : it ∈ s) (hgid : value.gidStage = it.gidStage) :
    (stages (replace s it value)).Perm (stages s) := by
  have hperm := (Lawful.replace_entry s it value hit hgid).map HostingInfo.gidStage
  rw [List.map_cons, hgid, ← List.map_cons] at hperm
  exact hperm.trans ((List.perm_cons_erase hit).map _).symm

/-- Another stage than the one whose entry is replaced keeps its entry. -/
theorem mem_replace_of_stage {value : HostingInfo} (hit : it ∈ s)
    (hgid : value.gidStage = it.gidStage) (hne : info.gidStage ≠ it.gidStage) :
    info ∈ replace s it value ↔ info ∈ s := by
  rw [mem_replace hit hgid]
  constructor
  · rintro (rfl | ⟨-, hinfo⟩)
    · exact absurd hgid hne
    · exact hinfo
  · intro hinfo
    exact .inr ⟨fun he => hne (congrArg HostingInfo.gidStage he), hinfo⟩

end HostingTable

open HostingTable

/-- LEAVE_HOST releases the stage from its host, and nothing else, exactly when the
first entry of the host is the stage's, or the stage has no entry of the host. -/
theorem leave_host_releases_iff {T : Type} [HostingTable T] [Lawful T] (inv : Invalid) (s : T)
    (gidStage : GID) (lkeyHost : LKEY) (valid : lkeyHost ≠ inv.lkey) :
    Released inv gidStage lkeyHost s ((HostingMsg.leaveHost gidStage lkeyHost).apply inv s) ↔
      (Serves s gidStage lkeyHost →
        ∀ first ∈ findHostLkey s lkeyHost, first.gidStage = gidStage) := by
  simp only [HostingMsg.apply]
  cases hleaving : leaving s gidStage lkeyHost with
  | none =>
      constructor
      · intro hreleased hserves
        obtain ⟨info, hinfo, hgid, hhost⟩ := hserves
        have hkept := (hreleased.own ⟨info, hinfo, hgid, hhost⟩ info hinfo hgid).2
        exact absurd (hhost.symm.trans hkept) valid
      · intro hfirst
        refine ⟨fun hserves => ?_, fun _ _ => Iff.rfl, .refl _⟩
        obtain ⟨first, hfind, hne⟩ := leaving_none hleaving hserves
        exact absurd (hfirst hserves first hfind) hne
  | some it =>
      obtain ⟨hit, rfl, -⟩ := leaving_some hleaving
      constructor
      · intro _ _ first hfind
        obtain ⟨hsame, -⟩ := Option.filter_eq_some_iff.mp hleaving
        rw [Option.mem_def.mp hfind] at hsame
        rw [Option.some.inj hsame]
      · intro _
        have hstage : (it.releaseHostingInfo inv).gidStage = it.gidStage := rfl
        refine ⟨fun _ info hinfo hgid => ?_, fun info => mem_replace_of_stage hit hstage,
          stages_replace hit hstage⟩
        rcases (mem_replace hit hstage).mp hinfo with rfl | ⟨hne, hinfo⟩
        · exact ⟨rfl, rfl⟩
        · exact absurd (eq_of_gidStage hinfo hit hgid) hne

def hostingTable (inv : Invalid) (msgs : List HostingMsg) : HostingInfoSet :=
  msgs.foldl (fun s msg => msg.apply inv s) .empty

/-- A host that serves two stages; the entry of the second one comes first. -/
def twoStages : List HostingMsg :=
  [.createInstanceZone 1, .createInstanceZone 2, .joinHost 1 7, .joinHost 2 7]

theorem leave_host_releases_second :
    Released ⟨0, 0⟩ 2 7 (hostingTable ⟨0, 0⟩ twoStages)
      ((HostingMsg.leaveHost 2 7).apply ⟨0, 0⟩ (hostingTable ⟨0, 0⟩ twoStages)) :=
  (leave_host_releases_iff ⟨0, 0⟩ _ 2 7 (by decide)).mpr fun _ => by decide

/-- A LEAVE_HOST for the first stage leaves it with its host. -/
theorem leave_host_keeps_first :
    ¬ ∀ (inv : Invalid) (s : HostingInfoSet) (gidStage : GID) (lkeyHost : LKEY),
      lkeyHost ≠ inv.lkey → Released inv gidStage lkeyHost s
        ((HostingMsg.leaveHost gidStage lkeyHost).apply inv s) := by
  intro h
  have hreleased := h ⟨0, 0⟩ (hostingTable ⟨0, 0⟩ twoStages) 1 7 (by decide)
  exact absurd (hreleased.own ⟨⟨1, 0, 7⟩, by decide, rfl, rfl⟩ ⟨1, 0, 7⟩ (by decide) rfl).2
    (by decide)

end TestCodes.SvrGame
