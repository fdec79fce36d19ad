import TestCodes.Lib.ArgMin
import TestCodes.SvrMaster.SvcConfig
import Mathlib

/-! The choice of a game server: the least loaded one of a world. -/
namespace TestCodes.SvrMaster

def ServerFields.open (child : ServerFields) : Bool := child.isType .game && child.pSock.isSome

namespace CSvcConfig
variable {cfg : CSvcConfig} {nWorldID : Int}

/-- A live community server of the world has the server as a child, and it is open. -/
def Offers (cfg : CSvcConfig) (nWorldID : Int) (server : ServerFields) : Prop :=
  ∃ entry ∈ cfg.vecLiveServer, entry.2.isType .community ∧ entry.2.nWorldID = nWorldID ∧
    some server ∈ entry.2.vecChildren ∧ server.open

def openChild : Option ServerFields → List ServerFields
  | none => []
  | some child => if child.open then [child] else []

/-- All servers on offer, in the order of the two loops. -/
def offers (cfg : CSvcConfig) (nWorldID : Int) : List ServerFields :=
  (cfg.findSvrTypeSvrList .community).flatMap fun community =>
    if nWorldID = community.nWorldID then community.vecChildren.flatMap openChild else []

theorem mem_openChild {child : Option ServerFields} {server : ServerFields} :
    server ∈ openChild child ↔ child = some server ∧ server.open := by
  cases child with
  | none => simp [openChild]
  | some now =>
      rw [openChild, Option.some.injEq]
      split
      · rename_i hopen
        rw [List.mem_singleton]
        exact ⟨fun he => ⟨he.symm, he ▸ hopen⟩, fun h => h.1.symm⟩
      · rename_i hopen
        simp only [List.not_mem_nil, false_iff]
        rintro ⟨rfl, h⟩
        exact hopen h

theorem mem_offers {server : ServerFields} :
    server ∈ cfg.offers nWorldID ↔ cfg.Offers nWorldID server := by
  simp only [offers, findSvrTypeSvrList, List.mem_flatMap, List.mem_filter, List.mem_map]
  constructor
  · rintro ⟨community, ⟨⟨entry, hentry, rfl⟩, htype⟩, hserver⟩
    split at hserver
    · rename_i hworld
      obtain ⟨child, hchild, hserver⟩ := List.mem_flatMap.mp hserver
      obtain ⟨rfl, hopen⟩ := mem_openChild.mp hserver
      exact ⟨entry, hentry, htype, hworld.symm, hchild, hopen⟩
    · cases hserver
  · rintro ⟨entry, hentry, htype, hworld, hchild, hopen⟩
    refine ⟨entry.2, ⟨⟨entry, hentry, rfl⟩, htype⟩, ?_⟩
    rw [if_pos hworld.symm]
    exact List.mem_flatMap.mpr ⟨some server, hchild, mem_openChild.mpr ⟨rfl, hopen⟩⟩

theorem open_iff {child : ServerFields} :
    child.open ↔ child.isType .game ∧ child.pSock ≠ none := by
  rw [ServerFields.open, Bool.and_eq_true, Option.isSome_iff_ne_none]

theorem lowUser_eq (best child : Option ServerFields) :
    lowUser best child = (openChild child).foldl (keepMin ServerFields.nCurPlayer) best := by
  cases child with
  | none => rfl
  | some now =>
      rw [openChild]
      show (if _ then _ else _) = _
      by_cases htype : now.isType .game
      · rw [if_neg (by simp [htype])]
        by_cases hsock : now.pSock = none
        · rw [if_pos (by simp [hsock]), if_neg (by simp [open_iff, hsock])]
          rfl
        · rw [if_neg (by simp [hsock]), if_pos (by simp [open_iff, htype, hsock])]
          cases best <;> rfl
      · rw [if_pos (by simp [htype]), if_neg (by simp [open_iff, htype])]
        rfl

theorem findLowUserGameServer_eq (cfg : CSvcConfig) (nWorldID : Int) :
    cfg.findLowUserGameServer nWorldID =
      (cfg.offers nWorldID).argmin ServerFields.nCurPlayer := by
  rw [argmin_eq_foldl]
  refine foldl_keepMin (fun best community => ?_) _ none
  split
  · exact foldl_keepMin lowUser_eq community.vecChildren best
  · rfl

/-- No server is found exactly when none is on offer; otherwise the first of those
with the fewest players. -/
theorem low_user_server_least (cfg : CSvcConfig) (nWorldID : Int) :
    (cfg.findLowUserGameServer nWorldID = none ↔ ∀ server, ¬ cfg.Offers nWorldID server) ∧
    ∀ server, cfg.findLowUserGameServer nWorldID = some server →
      cfg.Offers nWorldID server ∧
      (∀ other, cfg.Offers nWorldID other → server.nCurPlayer ≤ other.nCurPlayer) ∧
      ∃ before behind, cfg.offers nWorldID = before ++ server :: behind ∧
        ∀ other ∈ before, server.nCurPlayer < other.nCurPlayer := by
  rw [findLowUserGameServer_eq]
  constructor
  · rw [List.argmin_eq_none, List.eq_nil_iff_forall_not_mem]
    exact forall_congr' fun server => not_congr mem_offers
  · intro server h
    obtain ⟨before, behind, hsplit, hbefore, -⟩ := argmin_split h
    refine ⟨mem_offers.mp (List.argmin_mem h), fun other hother => ?_, before, behind, hsplit,
      hbefore⟩
    exact List.le_of_mem_argmin (mem_offers.mpr hother) h

end CSvcConfig
end TestCodes.SvrMaster
