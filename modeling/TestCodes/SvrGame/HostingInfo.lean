import TestCodes.Lib.OrderedIndex

/-! The hosting table: which client and which host connection serve a stage. It is
any container with the three indexes of `HostingInfoSet` that keeps their promises. -/
namespace TestCodes.SvrGame

abbrev GID := ℕ
abbrev LKEY := ℕ

/-- `GID_INVALID` and `LKEY_INVALID`, which are defined outside the repository. -/
structure Invalid where
  gid : GID
  lkey : LKEY

structure HostingInfo where
  gidStage : GID
  lkeyCltConn : LKEY
  lkeyHostConn : LKEY
  deriving DecidableEq

namespace HostingInfo

def new (inv : Invalid) (gidStage : GID) : HostingInfo := ⟨gidStage, inv.lkey, inv.lkey⟩

def setCltLKEY (info : HostingInfo) (lkeyClt : LKEY) : HostingInfo :=
  { info with lkeyCltConn := lkeyClt }

def setHostLKEY (info : HostingInfo) (lkeyHost : LKEY) : HostingInfo :=
  { info with lkeyHostConn := lkeyHost }

def releaseHostingInfo (inv : Invalid) (info : HostingInfo) : HostingInfo :=
  { info with lkeyCltConn := inv.lkey, lkeyHostConn := inv.lkey }

def releaseClt (inv : Invalid) (info : HostingInfo) : HostingInfo :=
  { info with lkeyCltConn := inv.lkey }

end HostingInfo

/-- What is called of `boost::multi_index_container`, whose code is outside the
repository. An iterator is the entry that it leads to. -/
class HostingTable (T : Type) where
  empty : T
  primary : T → List HostingInfo
  cltLkey : T → List HostingInfo
  hostLkey : T → List HostingInfo
  findPrimary : T → GID → Option HostingInfo
  findCltLkey : T → LKEY → Option HostingInfo
  findHostLkey : T → LKEY → Option HostingInfo
  insert : T → HostingInfo → T
  erase : T → HostingInfo → T
  replace : T → HostingInfo → HostingInfo → T

namespace HostingTable
section
variable {T : Type} [HostingTable T]

instance : Membership HostingInfo T := ⟨fun s info => info ∈ primary s⟩

instance (s : T) (info : HostingInfo) : Decidable (info ∈ s) :=
  inferInstanceAs (Decidable (info ∈ primary s))

def stages (s : T) : List GID := (primary s).map HostingInfo.gidStage

end

/-- What the container promises: the indexes hold the same entries, `find` answers
the first of equal keys, a second entry for a stage is refused, and a change of an
entry in place is a change of that entry only. -/
class Lawful (T : Type) [HostingTable T] : Prop where
  empty_entries : primary (empty : T) = []
  stage_unique : ∀ s : T, (stages s).Nodup
  same_clt : ∀ s : T, (cltLkey s).Perm (primary s)
  same_host : ∀ s : T, (hostLkey s).Perm (primary s)
  first_primary : ∀ (s : T) (gidStage : GID),
    findPrimary s gidStage = (primary s).find? fun info => info.gidStage = gidStage
  first_clt : ∀ (s : T) (lkey : LKEY),
    findCltLkey s lkey = (cltLkey s).find? fun info => info.lkeyCltConn = lkey
  first_host : ∀ (s : T) (lkey : LKEY),
    findHostLkey s lkey = (hostLkey s).find? fun info => info.lkeyHostConn = lkey
  insert_new : ∀ (s : T) (value : HostingInfo), value.gidStage ∉ stages s →
    (primary (insert s value)).Perm (value :: primary s)
  insert_second : ∀ (s : T) (value : HostingInfo), value.gidStage ∈ stages s → insert s value = s
  erase_entry : ∀ (s : T) (it : HostingInfo), it ∈ s →
    (primary (erase s it)).Perm ((primary s).erase it)
  replace_entry : ∀ (s : T) (it value : HostingInfo), it ∈ s → value.gidStage = it.gidStage →
    (primary (replace s it value)).Perm (value :: (primary s).erase it)

variable {T : Type} [HostingTable T] [Lawful T] {s : T} {it value info : HostingInfo}

theorem not_mem_empty (info : HostingInfo) : info ∉ (empty : T) := by
  intro h
  have hnil : info ∈ primary (empty : T) := h
  rw [Lawful.empty_entries] at hnil
  cases hnil

theorem nodup (s : T) : (primary s).Nodup := (Lawful.stage_unique s).of_map _

theorem eq_of_gidStage {x y : HostingInfo} (hx : x ∈ s) (hy : y ∈ s)
    (h : x.gidStage = y.gidStage) : x = y :=
  List.inj_on_of_nodup_map (Lawful.stage_unique s) hx hy h

theorem mem_insert (h : info ∈ insert s value) : info ∈ s ∨ info = value := by
  by_cases hstage : value.gidStage ∈ stages s
  · rw [Lawful.insert_second s value hstage] at h
    exact .inl h
  · exact (List.mem_cons.mp ((Lawful.insert_new s value hstage).mem_iff.mp h)).symm

theorem mem_erase (hit : it ∈ s) : info ∈ erase s it ↔ info ≠ it ∧ info ∈ s :=
  (Lawful.erase_entry s it hit).mem_iff.trans (nodup s).mem_erase_iff

theorem mem_replace (hit : it ∈ s) (hgid : value.gidStage = it.gidStage) :
    info ∈ replace s it value ↔ info = value ∨ info ≠ it ∧ info ∈ s := by
  refine (Lawful.replace_entry s it value hit hgid).mem_iff.trans ?_
  rw [List.mem_cons, (nodup s).mem_erase_iff]
  exact Iff.rfl

theorem findPrimary_some {gidStage : GID} (h : findPrimary s gidStage = some it) :
    it ∈ s ∧ it.gidStage = gidStage := by
  rw [Lawful.first_primary] at h
  exact ⟨List.mem_of_find?_eq_some h, by simpa using List.find?_some h⟩

theorem findCltLkey_some {lkey : LKEY} (h : findCltLkey s lkey = some it) :
    it ∈ s ∧ it.lkeyCltConn = lkey := by
  rw [Lawful.first_clt] at h
  exact ⟨(Lawful.same_clt s).mem_iff.mp (List.mem_of_find?_eq_some h),
    by simpa using List.find?_some h⟩

theorem findCltLkey_none {lkey : LKEY} (h : findCltLkey s lkey = none) (hinfo : info ∈ s) :
    info.lkeyCltConn ≠ lkey := by
  rw [Lawful.first_clt] at h
  simpa using List.find?_eq_none.mp h info ((Lawful.same_clt s).mem_iff.mpr hinfo)

theorem findHostLkey_some {lkey : LKEY} (h : findHostLkey s lkey = some it) :
    it ∈ s ∧ it.lkeyHostConn = lkey := by
  rw [Lawful.first_host] at h
  exact ⟨(Lawful.same_host s).mem_iff.mp (List.mem_of_find?_eq_some h),
    by simpa using List.find?_some h⟩

theorem findHostLkey_none {lkey : LKEY} (h : findHostLkey s lkey = none) (hinfo : info ∈ s) :
    info.lkeyHostConn ≠ lkey := by
  rw [Lawful.first_host] at h
  simpa using List.find?_eq_none.mp h info ((Lawful.same_host s).mem_iff.mpr hinfo)

end HostingTable

/-- The container as Boost has it, with an ordered index for each key. -/
structure HostingInfoSet where
  primary : OrderedIndex HostingInfo.gidStage
  cltLkey : OrderedIndex HostingInfo.lkeyCltConn
  hostLkey : OrderedIndex HostingInfo.lkeyHostConn
  unique : (primary.entries.map HostingInfo.gidStage).Nodup
  sameClt : cltLkey.entries.Perm primary.entries
  sameHost : hostLkey.entries.Perm primary.entries

namespace HostingInfoSet

def empty : HostingInfoSet := ⟨.empty _, .empty _, .empty _, .nil, .refl _, .refl _⟩

/-- A second entry for a stage is not let in. -/
def insert (s : HostingInfoSet) (value : HostingInfo) : HostingInfoSet :=
  if h : value.gidStage ∈ s.primary.entries.map HostingInfo.gidStage then s
  else
    { primary := s.primary.insert value
      cltLkey := s.cltLkey.insert value
      hostLkey := s.hostLkey.insert value
      unique := by
        rw [((s.primary.insert_perm value).map _).nodup_iff, List.map_cons]
        exact List.nodup_cons.mpr ⟨h, s.unique⟩
      sameClt := (s.cltLkey.insert_perm value).trans
        ((s.sameClt.cons value).trans (s.primary.insert_perm value).symm)
      sameHost := (s.hostLkey.insert_perm value).trans
        ((s.sameHost.cons value).trans (s.primary.insert_perm value).symm) }

def erase (s : HostingInfoSet) (it : HostingInfo) : HostingInfoSet where
  primary := s.primary.erase it
  cltLkey := s.cltLkey.erase it
  hostLkey := s.hostLkey.erase it
  unique := s.unique.sublist (List.erase_sublist.map _)
  sameClt := s.sameClt.erase it
  sameHost := s.sameHost.erase it

/-- A value for a stage that another entry is for is refused. -/
def replace (s : HostingInfoSet) (it value : HostingInfo) : HostingInfoSet :=
  if h : value.gidStage ∈ (s.primary.entries.erase it).map HostingInfo.gidStage then s
  else
    { primary := s.primary.replace it value
      cltLkey := s.cltLkey.replace it value
      hostLkey := s.hostLkey.replace it value
      unique := by
        rw [((s.primary.replace_perm it value).map _).nodup_iff, List.map_cons]
        exact List.nodup_cons.mpr ⟨h, s.unique.sublist (List.erase_sublist.map _)⟩
      sameClt := (s.cltLkey.replace_perm it value).trans
        (((s.sameClt.erase it).cons value).trans (s.primary.replace_perm it value).symm)
      sameHost := (s.hostLkey.replace_perm it value).trans
        (((s.sameHost.erase it).cons value).trans (s.primary.replace_perm it value).symm) }

instance : HostingTable HostingInfoSet where
  empty := empty
  primary s := s.primary.entries
  cltLkey s := s.cltLkey.entries
  hostLkey s := s.hostLkey.entries
  findPrimary s := s.primary.find
  findCltLkey s := s.cltLkey.find
  findHostLkey s := s.hostLkey.find
  insert := insert
  erase := erase
  replace := replace

theorem insert_perm {s : HostingInfoSet} {value : HostingInfo}
    (h : value.gidStage ∉ s.primary.entries.map HostingInfo.gidStage) :
    (s.insert value).primary.entries.Perm (value :: s.primary.entries) := by
  rw [insert, dif_neg h]
  exact s.primary.insert_perm value

theorem replace_perm {s : HostingInfoSet} {it value : HostingInfo} (hit : it ∈ s)
    (hgid : value.gidStage = it.gidStage) :
    (s.replace it value).primary.entries.Perm (value :: s.primary.entries.erase it) := by
  have hnot : value.gidStage ∉ (s.primary.entries.erase it).map HostingInfo.gidStage := by
    intro hmem
    obtain ⟨x, hx, hxgid⟩ := List.mem_map.mp hmem
    obtain ⟨hne, hx⟩ := (s.unique.of_map _).mem_erase_iff.mp hx
    exact hne (List.inj_on_of_nodup_map s.unique hx hit (hxgid.trans hgid))
  rw [replace, dif_neg hnot]
  exact s.primary.replace_perm it value

instance : HostingTable.Lawful HostingInfoSet where
  empty_entries := rfl
  stage_unique s := s.unique
  same_clt s := s.sameClt
  same_host s := s.sameHost
  first_primary _ _ := rfl
  first_clt _ _ := rfl
  first_host _ _ := rfl
  insert_new _ _ := insert_perm
  insert_second _ _ h := dif_pos h
  erase_entry _ _ _ := .refl _
  replace_entry _ _ _ := replace_perm

end HostingInfoSet

/-- A message with the arguments that its operator reads. -/
inductive HostingMsg where
  | assignCltHost (gidStage : GID) (lkeyClt : LKEY)
  | createInstanceZone (gidStage : GID)
  | destroyInstanceZone (gidStage : GID)
  | joinHost (gidStage : GID) (lkeyHost : LKEY)
  | leaveHost (gidStage : GID) (lkeyHost : LKEY)
  | leaveClient (lkeyClient : LKEY)
  deriving DecidableEq

/-- `m_msgFactories` -/
def msgFactory : String → Option (GID → LKEY → HostingMsg)
  | "ASSIGN_CLT_HOST" => some .assignCltHost
  | "CREATE_INSTANCE_ZONE" => some fun gidStage _ => .createInstanceZone gidStage
  | "DESTROY_INSTANCE_ZONE" => some fun gidStage _ => .destroyInstanceZone gidStage
  | "JOIN_HOST" => some .joinHost
  | "LEAVE_HOST" => some .leaveHost
  | "LEAVE_CLIENT" => some fun _ lkeyClt => .leaveClient lkeyClt
  | _ => none

section
variable {T : Type} [HostingTable T]

/-- The entry that a LEAVE_HOST releases: the first under the host's key, if it is
the one of the stage. -/
def HostingTable.leaving (s : T) (gidStage : GID) (lkeyHost : LKEY) : Option HostingInfo :=
  (findHostLkey s lkeyHost).filter fun info => info.gidStage = gidStage

def HostingMsg.apply (inv : Invalid) (msg : HostingMsg) (s : T) : T :=
  match msg with
  | assignCltHost gidStage lkeyClt =>
      match HostingTable.findPrimary s gidStage with
      | none => s
      | some it => HostingTable.replace s it (it.setCltLKEY lkeyClt)
  | createInstanceZone gidStage => HostingTable.insert s (.new inv gidStage)
  | destroyInstanceZone gidStage =>
      match HostingTable.findPrimary s gidStage with
      | none => s
      | some it => HostingTable.erase s it
  | joinHost gidStage lkeyHost =>
      match HostingTable.findPrimary s gidStage with
      | none => s
      | some it => HostingTable.replace s it (it.setHostLKEY lkeyHost)
  | leaveHost gidStage lkeyHost =>
      match HostingTable.leaving s gidStage lkeyHost with
      | none => s
      | some it => HostingTable.replace s it (it.releaseHostingInfo inv)
  | leaveClient lkeyClient =>
      match HostingTable.findCltLkey s lkeyClient with
      | none => s
      | some it => HostingTable.replace s it (it.releaseClt inv)

variable [HostingTable.Lawful T]

theorem HostingTable.leaving_some {s : T} {gidStage : GID} {lkeyHost : LKEY} {it : HostingInfo}
    (h : leaving s gidStage lkeyHost = some it) :
    it ∈ s ∧ it.gidStage = gidStage ∧ it.lkeyHostConn = lkeyHost := by
  obtain ⟨hfind, hgid⟩ := Option.filter_eq_some_iff.mp h
  obtain ⟨hit, hhost⟩ := findHostLkey_some hfind
  exact ⟨hit, by simpa using hgid, hhost⟩

theorem HostingTable.of_mem_change {s : T} {found : Option HostingInfo}
    {change : HostingInfo → HostingInfo} {info : HostingInfo}
    (h : info ∈ match found with
      | none => s
      | some it => replace s it (change it))
    (hfound : ∀ it, found = some it → it ∈ s)
    (hgid : ∀ it, (change it).gidStage = it.gidStage) :
    (∃ it, found = some it ∧ info = change it) ∨ info ∈ s ∧ ∀ it, found = some it → info ≠ it := by
  cases found with
  | none => exact .inr ⟨h, nofun⟩
  | some it =>
      rcases (mem_replace (hfound it rfl) (hgid it)).mp h with rfl | ⟨hne, hinfo⟩
      · exact .inl ⟨it, rfl, rfl⟩
      · exact .inr ⟨hinfo, fun it' hit => Option.some.inj hit ▸ hne⟩

/-- A client key in the table is the invalid one, was just assigned, or was there before. -/
theorem HostingMsg.apply_clt {inv : Invalid} {msg : HostingMsg} {s : T} {info : HostingInfo}
    (h : info ∈ msg.apply inv s) :
    info.lkeyCltConn = inv.lkey ∨ (∃ gidStage, msg = assignCltHost gidStage info.lkeyCltConn) ∨
      ∃ x ∈ s, x.lkeyCltConn = info.lkeyCltConn := by
  have same : info ∈ s → ∃ x ∈ s, x.lkeyCltConn = info.lkeyCltConn :=
    fun hinfo => ⟨info, hinfo, rfl⟩
  have stage : ∀ gidStage it, HostingTable.findPrimary s gidStage = some it → it ∈ s :=
    fun _ _ hit => (HostingTable.findPrimary_some hit).1
  cases msg with
  | assignCltHost gidStage lkeyClt =>
      obtain ⟨it, -, rfl⟩ | ⟨hinfo, -⟩ :=
        HostingTable.of_mem_change h (stage gidStage) fun _ => rfl
      · exact .inr (.inl ⟨gidStage, rfl⟩)
      · exact .inr (.inr (same hinfo))
  | createInstanceZone gidStage =>
      rcases HostingTable.mem_insert h with hinfo | rfl
      · exact .inr (.inr (same hinfo))
      · exact .inl rfl
  | destroyInstanceZone gidStage =>
      simp only [apply] at h
      split at h
      · exact .inr (.inr (same h))
      · rename_i it hit
        exact .inr (.inr (same ((HostingTable.mem_erase (stage gidStage it hit)).mp h).2))
  | joinHost gidStage lkeyHost =>
      obtain ⟨it, hit, rfl⟩ | ⟨hinfo, -⟩ :=
        HostingTable.of_mem_change h (stage gidStage) fun _ => rfl
      · exact .inr (.inr ⟨it, stage gidStage it hit, rfl⟩)
      · exact .inr (.inr (same hinfo))
  | leaveHost gidStage lkeyHost =>
      obtain ⟨it, -, rfl⟩ | ⟨hinfo, -⟩ :=
        HostingTable.of_mem_change h (fun _ hit => (HostingTable.leaving_some hit).1) fun _ => rfl
      · exact .inl rfl
      · exact .inr (.inr (same hinfo))
  | leaveClient lkeyClient =>
      obtain ⟨it, -, rfl⟩ | ⟨hinfo, -⟩ :=
        HostingTable.of_mem_change h (fun _ hit => (HostingTable.findCltLkey_some hit).1)
          fun _ => rfl
      · exact .inl rfl
      · exact .inr (.inr (same hinfo))

/-- LEAVE_CLIENT releases one entry: the client is forgotten when it had no other. -/
theorem HostingMsg.apply_leaveClient {inv : Invalid} {lkey : LKEY} {s : T}
    (hne : lkey ≠ inv.lkey)
    (single : ∀ x ∈ s, ∀ y ∈ s, x.lkeyCltConn = lkey → y.lkeyCltConn = lkey → x = y)
    {info : HostingInfo} (h : info ∈ (leaveClient lkey).apply inv s) :
    info.lkeyCltConn ≠ lkey := by
  obtain ⟨it, -, rfl⟩ | ⟨hinfo, hother⟩ :=
    HostingTable.of_mem_change h (fun _ hit => (HostingTable.findCltLkey_some hit).1) fun _ => rfl
  · exact hne.symm
  · cases hfind : HostingTable.findCltLkey s lkey with
    | none => exact HostingTable.findCltLkey_none hfind hinfo
    | some it =>
        obtain ⟨hit, hkey⟩ := HostingTable.findCltLkey_some hfind
        exact fun he => hother it hfind (single info hinfo it hit he hkey)

end
end TestCodes.SvrGame
