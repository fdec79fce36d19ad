import TestCodes.SvrGame.HostResourceMgr

/-! The pool of clients that may host, `m_HostableClt`: it only grows. -/
namespace TestCodes.SvrGame
open Machine

section
variable {T : Type}

namespace HostResourceMgr

/-- A client of the table stands at the address. -/
def LiveClient (s : HostResourceMgr T) (address : Ptr) : Prop :=
  ∃ k p, s.resourceContainer.find k = some p ∧ p.address = address ∧ p.eType = .user

/-- The pool holds live clients only, and none of them twice. -/
structure PoolLive (s : HostResourceMgr T) : Prop where
  live : ∀ address ∈ s.hostableClt, s.LiveClient address
  nodup : s.hostableClt.Nodup

/-- The pool holds exactly the live clients, and no two resources share an address. -/
structure PoolExact (s : HostResourceMgr T) : Prop where
  mem : ∀ address, address ∈ s.hostableClt ↔ s.LiveClient address
  nodup : s.hostableClt.Nodup
  distinct : ∀ j k p q, s.resourceContainer.find j = some p → s.resourceContainer.find k = some q →
    p.address = q.address → j = k

/-- The step leaves the pool alone: no client disconnects, and no LEAVE_HOST gives
back a client. -/
def SparesPool [HostingTable T] (inv : Invalid) (s : HostResourceMgr T) : Event → Prop
  | .connectionDisconnected (some c) => ∀ p, s.resourceContainer.find c.lkey = some p →
      p.eType ≠ .user
  | .handle isExistConnection => ∀ repeatCnt pMsg, s.main = .handling repeatCnt pMsg →
      s.returning inv isExistConnection pMsg = none
  | _ => True

variable {inv : Invalid} {s s' : HostResourceMgr T}

theorem PoolExact.init [HostingTable T] : PoolExact (.init : HostResourceMgr T) where
  mem address := by simp [HostResourceMgr.init, LiveClient]
  nodup := .nil
  distinct j k p q h := by cases h

theorem PoolExact.poolLive (h : s.PoolExact) : s.PoolLive :=
  ⟨fun address ha => (h.mem address).mp ha, h.nodup⟩

theorem PoolExact.congr (h : s.PoolExact) (hpool : s'.hostableClt = s.hostableClt)
    (hcontainer : s'.resourceContainer = s.resourceContainer) : s'.PoolExact := by
  refine ⟨fun address => ?_, hpool ▸ h.nodup, hcontainer ▸ h.distinct⟩
  rw [LiveClient, hpool, hcontainer]
  exact h.mem address

theorem vacant_iff {address : Ptr} (h : s.vacant address = true) {k : LKEY} {p : HostResource}
    (hp : s.resourceContainer.find k = some p) : p.address ≠ address := by
  have hmem := List.all_eq_true.mp h _ (StdMap.mem_entries hp)
  exact of_decide_eq_true hmem

theorem PoolExact.distinct_set (h : s.PoolExact) {key : LKEY} {r : HostResource}
    (hvacant : s.vacant r.address = true) (j k : LKEY) (p q : HostResource)
    (hp : (s.resourceContainer.set key r).find j = some p)
    (hq : (s.resourceContainer.set key r).find k = some q) (haddress : p.address = q.address) :
    j = k := by
  rw [StdMap.find_set] at hp hq
  by_cases hj : j = key <;> by_cases hk : k = key <;>
    simp only [hj, hk, ↓reduceIte, Option.some.injEq] at hp hq ⊢
  · rw [← hp] at haddress
    exact absurd haddress.symm (vacant_iff hvacant hq)
  · rw [← hq] at haddress
    exact absurd haddress (vacant_iff hvacant hp)
  · exact h.distinct j k p q hp hq haddress

theorem liveClient_set {key : LKEY} {r : HostResource}
    (hnone : s.resourceContainer.find key = none) {s' : HostResourceMgr T}
    (hcontainer : s'.resourceContainer = s.resourceContainer.set key r) (address : Ptr) :
    s'.LiveClient address ↔ s.LiveClient address ∨ r.address = address ∧ r.eType = .user := by
  unfold LiveClient
  rw [hcontainer]
  constructor
  · rintro ⟨k, p, hp, haddress, htype⟩
    rw [StdMap.find_set] at hp
    split at hp
    · obtain rfl := Option.some.inj hp
      exact .inr ⟨haddress, htype⟩
    · exact .inl ⟨k, p, hp, haddress, htype⟩
  · rintro (⟨k, p, hp, haddress, htype⟩ | ⟨haddress, htype⟩)
    · refine ⟨k, p, ?_, haddress, htype⟩
      rw [StdMap.find_set, if_neg (StdMap.ne_of_find hp hnone), hp]
    · exact ⟨key, r, by rw [StdMap.find_set, if_pos rfl], haddress, htype⟩

theorem liveClient_eraseKey {key : LKEY} {s' : HostResourceMgr T}
    (hcontainer : s'.resourceContainer = s.resourceContainer.eraseKey key) {address : Ptr}
    (h : s'.LiveClient address) : s.LiveClient address := by
  obtain ⟨k, p, hp, haddress, htype⟩ := h
  rw [hcontainer] at hp
  exact ⟨k, p, (StdMap.find_eraseKey_some hp).2, haddress, htype⟩

theorem PoolExact.clientEntered (h : s.PoolExact) {c : CConnection} {address : Ptr}
    (hnone : s.resourceContainer.find c.lkey = none) (hvacant : s.vacant address = true) :
    PoolExact { s with
      resourceContainer := s.resourceContainer.set c.lkey ⟨address, c.lkey, .user⟩
      cltIndex := insert c.lkey s.cltIndex
      hostableClt := s.hostableClt ++ [address] } where
  mem a := by
    rw [liveClient_set hnone rfl a, ← h.mem a, List.mem_append, List.mem_singleton]
    simp [eq_comm]
  nodup := by
    refine List.nodup_append.mpr ⟨h.nodup, List.nodup_singleton _, ?_⟩
    rintro a ha b hb rfl
    obtain ⟨k, p, hp, haddress, -⟩ := (h.mem a).mp ha
    rw [List.mem_singleton.mp hb] at haddress
    exact vacant_iff hvacant hp haddress
  distinct := h.distinct_set hvacant

theorem PoolExact.hostEntered (h : s.PoolExact) {c : CConnection} {address : Ptr}
    (hnone : s.resourceContainer.find c.lkey = none) (hvacant : s.vacant address = true) :
    PoolExact { s with
      resourceContainer := s.resourceContainer.set c.lkey ⟨address, c.lkey, .host⟩
      hostIndex := insert c.lkey s.hostIndex } where
  mem a := by
    rw [liveClient_set hnone rfl a, ← h.mem a]
    simp
  nodup := h.nodup
  distinct := h.distinct_set hvacant

theorem PoolExact.otherLeft (h : s.PoolExact) {c : CConnection} {p : HostResource}
    (hp : s.resourceContainer.find c.lkey = some p) (htype : p.eType ≠ .user)
    (hostIndex : Finset LKEY) :
    PoolExact { s with
      resourceContainer := s.resourceContainer.eraseKey c.lkey
      hostIndex } where
  mem a := by
    rw [h.mem a]
    constructor
    · rintro ⟨k, q, hq, haddress, hq'⟩
      refine ⟨k, q, ?_, haddress, hq'⟩
      have hne : k ≠ c.lkey := by
        rintro rfl
        exact htype (Option.some.inj (hp.symm.trans hq) ▸ hq')
      rw [StdMap.find_eraseKey, if_neg hne, hq]
    · exact liveClient_eraseKey rfl
  nodup := h.nodup
  distinct j k q r hq hr :=
    h.distinct j k q r (StdMap.find_eraseKey_some hq).2 (StdMap.find_eraseKey_some hr).2

variable [HostingTable T]

theorem returning_some {isExistConnection : LKEY → Bool} {msg : HostingMsg} {p : HostResource}
    (h : s.returning inv isExistConnection msg = some p) :
    ∃ k, s.resourceContainer.find k = some p ∧ p.eType = .user := by
  unfold returning at h
  split at h
  · obtain ⟨info, -, h⟩ := Option.bind_eq_some_iff.mp h
    split at h
    · obtain ⟨hp, htype⟩ := Option.filter_eq_some_iff.mp h
      exact ⟨_, hp, of_decide_eq_true htype⟩
    · cases h
  · cases h

theorem PoolExact.step (h : s.PoolExact) {e : Event} (hspares : s.SparesPool inv e)
    (he : s.step inv e = some s') : s'.PoolExact := by
  cases step_cases he with
  | same | unneeded => exact h
  | posted | begun | ended | popped => exact h.congr rfl rfl
  | clientEntered _ hnone hvacant => exact h.clientEntered hnone hvacant
  | hostEntered _ hnone hvacant => exact h.hostEntered hnone hvacant
  | clientLeft hp htype => exact absurd htype (hspares _ hp)
  | otherLeft hp htype => exact h.otherLeft hp htype _
  | handled hmain =>
      refine h.congr ?_ rfl
      simp only [handle, hspares _ _ hmain, Option.map_none, Option.toList_none, List.append_nil]

/-- A client that leaves stays in the pool; one that is given back is in it already. -/
theorem PoolExact.step_spoils (h : s.PoolExact) {e : Event} (hspoils : ¬ s.SparesPool inv e)
    (he : s.step inv e = some s') : ¬ s'.PoolLive := by
  intro hlive
  cases e with
  | connectionDisconnected pConnection =>
      cases pConnection with
      | none => exact hspoils trivial
      | some c =>
          simp only [SparesPool, not_forall, not_not] at hspoils
          obtain ⟨p, hp, htype⟩ := hspoils
          simp only [HostResourceMgr.step] at he
          split at he
          · obtain rfl := Option.some.inj he
            rw [connectionDisconnected, removeResource_client inv hp htype] at hlive
            obtain ⟨k, q, hq, haddress, -⟩ :=
              hlive.live p.address ((h.mem _).mpr ⟨_, p, hp, rfl, htype⟩)
            obtain ⟨hne, hq⟩ := StdMap.find_eraseKey_some hq
            exact hne (h.distinct _ _ _ _ hq hp haddress)
          · cases he
  | handle isExistConnection =>
      simp only [SparesPool, not_forall] at hspoils
      obtain ⟨repeatCnt, pMsg, hmain, hreturns⟩ := hspoils
      obtain ⟨p, hp⟩ := Option.ne_none_iff_exists'.mp hreturns
      simp only [HostResourceMgr.step, hmain, Option.some.injEq] at he
      obtain ⟨k, hk, htype⟩ := returning_some hp
      have hnodup := hlive.nodup
      rw [← he] at hnodup
      simp only [handle, hp, Option.map_some, Option.toList_some] at hnodup
      have hmem := (h.mem p.address).mpr ⟨k, p, hk, rfl, htype⟩
      exact (List.nodup_append.mp hnodup).2.2 _ hmem _ (List.mem_singleton_self _) rfl
  | pushMsg | connectionDescribed | update | pop => exact hspoils trivial

/-- A pool that is not in order never comes into order: it only grows, and a client
that comes to stand at an old address enters the pool again. -/
theorem PoolLive.of_step {e : Event} (h : s'.PoolLive) (he : s.step inv e = some s') :
    s.PoolLive := by
  cases step_cases he with
  | same | unneeded => exact h
  | posted | begun | ended | popped => exact ⟨h.live, h.nodup⟩
  | clientEntered _ hnone hvacant =>
      obtain ⟨hnodup, -, hfresh⟩ := List.nodup_append.mp h.nodup
      refine ⟨fun a ha => ?_, hnodup⟩
      obtain hlive | ⟨haddress, -⟩ :=
        (liveClient_set hnone rfl a).mp (h.live a (List.mem_append_left _ ha))
      · exact hlive
      · exact absurd haddress.symm (hfresh a ha _ (List.mem_singleton_self _))
  | hostEntered _ hnone hvacant =>
      refine ⟨fun a ha => ?_, h.nodup⟩
      rcases (liveClient_set hnone rfl a).mp (h.live a ha) with hlive | ⟨-, htype⟩
      · exact hlive
      · cases htype
  | clientLeft | otherLeft => exact ⟨fun a ha => liveClient_eraseKey rfl (h.live a ha), h.nodup⟩
  | handled =>
      obtain ⟨hnodup, -, -⟩ := List.nodup_append.mp h.nodup
      exact ⟨fun a ha => h.live a (List.mem_append_left _ ha), hnodup⟩

end HostResourceMgr
end

/-- The pool of a run is in order exactly when no client has disconnected and none was
given back by a LEAVE_HOST. -/
theorem hostable_pool_live_iff {T : Type} [HostingTable T] (inv : Invalid) (events : List Event)
    (s : HostResourceMgr T)
    (hrun : run (HostResourceMgr.step inv) .init events = some s) :
    s.PoolLive ↔ Along (HostResourceMgr.step inv) (HostResourceMgr.SparesPool inv)
      (.init : HostResourceMgr T) events := by
  have hends : Along (HostResourceMgr.step inv) (HostResourceMgr.SparesPool inv)
        (.init : HostResourceMgr T) events ∧ s.PoolExact ∨
      ¬ Along (HostResourceMgr.step inv) (HostResourceMgr.SparesPool inv)
        (.init : HostResourceMgr T) events ∧ ¬ s.PoolLive :=
    run_breaks HostResourceMgr.PoolExact (fun s => ¬ s.PoolLive)
      (fun s e t h hok he => h.step hok he) (fun s e t h hok he => h.step_spoils hok he)
      (fun s e t h he hlive => h (hlive.of_step he)) .init hrun
  rcases hends with ⟨halong, hexact⟩ | ⟨halong, hspoilt⟩
  · exact iff_of_true hexact.poolLive halong
  · exact iff_of_false hspoilt halong

/-- Two clients and a host, which leaves again. -/
def hostLeaves : List Event :=
  [.connectionDescribed (some ⟨5, .user⟩) 1, .connectionDescribed (some ⟨6, .user⟩) 2,
    .connectionDescribed (some ⟨9, .host⟩) 3, .connectionDisconnected (some ⟨9, .host⟩)]

theorem hostable_pool_live_host :
    ∃ s : HostResourceMgr HostingInfoSet,
      run (HostResourceMgr.step ⟨0, 0⟩) .init hostLeaves = some s ∧ s.hostableClt = [1, 2] ∧
      s.PoolLive := by
  refine ⟨_, rfl, rfl, (hostable_pool_live_iff ⟨0, 0⟩ hostLeaves _ rfl).mpr ?_⟩
  refine ⟨trivial, trivial, trivial, ?_, trivial⟩
  intro p hp
  obtain rfl := Option.some.inj hp
  decide

/-- A client comes and goes. -/
theorem hostable_pool_dangles :
    ¬ ∀ (events : List Event) (s : HostResourceMgr HostingInfoSet),
      run (HostResourceMgr.step ⟨0, 0⟩) .init events = some s → s.PoolLive := by
  intro h
  have hlive := h [.connectionDescribed (some ⟨5, .user⟩) 1,
    .connectionDisconnected (some ⟨5, .user⟩)] _ rfl
  obtain ⟨k, p, hp, -⟩ := hlive.live 1 (List.mem_singleton_self _)
  cases hp

end TestCodes.SvrGame
