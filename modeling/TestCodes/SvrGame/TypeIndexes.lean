import TestCodes.SvrGame.HostResourceMgr

/-! The type indexes against the table of resources. -/
namespace TestCodes.SvrGame
open Machine

def HostResource.isType (eType : ConnectionType) (p : HostResource) : Bool := p.eType = eType

theorem HostResource.isType_true {p : HostResource} {eType : ConnectionType}
    (h : p.isType eType = true) : p.eType = eType := of_decide_eq_true h

theorem HostResource.isType_false {p : HostResource} {eType : ConnectionType}
    (h : p.eType ≠ eType) : p.isType eType = false := decide_eq_false h

/-- The indexes hold the keys of the clients and of the hosts, and every resource
is one of these and stands under its own key. -/
structure Indexed {T : Type} (s : HostResourceMgr T) : Prop where
  clt : s.resourceContainer.KeySet (HostResource.isType .user) s.cltIndex
  host : s.resourceContainer.KeySet (HostResource.isType .host) s.hostIndex
  own : ∀ k p, s.resourceContainer.find k = some p →
    p.lkeyConnection = k ∧ (p.eType = .user ∨ p.eType = .host)

namespace Indexed
variable {T : Type} {inv : Invalid} {s s' : HostResourceMgr T}

theorem init [HostingTable T] : Indexed (.init : HostResourceMgr T) where
  clt := .empty _
  host := .empty _
  own k p h := by cases h

theorem own_set (h : Indexed s) {k : LKEY} {q : HostResource} (hkey : q.lkeyConnection = k)
    (htype : q.eType = .user ∨ q.eType = .host) (j : LKEY) (p : HostResource)
    (hp : (s.resourceContainer.set k q).find j = some p) :
    p.lkeyConnection = j ∧ (p.eType = .user ∨ p.eType = .host) := by
  rw [StdMap.find_set] at hp
  split at hp
  · rename_i hj
    rw [← Option.some.inj hp, hj]
    exact ⟨hkey, htype⟩
  · exact h.own j p hp

theorem step [HostingTable T] (h : Indexed s) {e : Event} (he : s.step inv e = some s') :
    Indexed s' := by
  cases HostResourceMgr.step_cases he with
  | same | posted | unneeded | begun | ended | popped | handled => exact ⟨h.clt, h.host, h.own⟩
  | clientEntered _ hnone =>
      exact ⟨h.clt.insert rfl, h.host.insert_other hnone rfl, h.own_set rfl (.inl rfl)⟩
  | hostEntered _ hnone =>
      exact ⟨h.clt.insert_other hnone rfl, h.host.insert rfl, h.own_set rfl (.inr rfl)⟩
  | @clientLeft c p hp htype =>
      have hother : p.isType .host = false := p.isType_false (by rw [htype]; decide)
      rw [(h.own _ _ hp).1]
      refine ⟨h.clt.erase _, h.host.erase_other hp hother, ?_⟩
      exact fun k q hq => h.own k q (StdMap.find_eraseKey_some hq).2
  | @otherLeft c p hp htype =>
      have hhost := (h.own _ _ hp).2.resolve_left htype
      refine ⟨h.clt.erase_other hp (p.isType_false htype), ?_, ?_⟩
      · rw [if_pos hhost, (h.own _ _ hp).1]
        exact h.host.erase _
      · exact fun k q hq => h.own k q (StdMap.find_eraseKey_some hq).2

theorem run [HostingTable T] (h : Indexed s) {events : List Event}
    (hrun : run (HostResourceMgr.step inv) s events = some s') : Indexed s' :=
  run_keeps Indexed (fun _ _ _ hs he => hs.step he) h hrun

theorem mem_index {keys : Finset LKEY} {eType : ConnectionType}
    (h : s.resourceContainer.KeySet (HostResource.isType eType) keys) (k : LKEY) :
    k ∈ keys ↔ ∃ p, s.resourceContainer.find k = some p ∧ p.eType = eType := by
  simpa only [HostResource.isType, decide_eq_true_eq] using h k

theorem getCurtypeConnCnt (h : Indexed s) {k : LKEY} {p : HostResource}
    (hp : s.resourceContainer.find k = some p) :
    s.getCurtypeConnCnt p = s.resourceContainer.entries.countP fun e => e.2.eType = p.eType := by
  rcases (h.own k p hp).2 with htype | htype
  · simp only [HostResourceMgr.getCurtypeConnCnt, htype]
    exact h.clt.card
  · simp only [HostResourceMgr.getCurtypeConnCnt, htype]
    exact h.host.card

end Indexed

/-- Whatever connections come and go, under whatever keys and types, both indexes
agree with the table and the counts are exact. -/
theorem type_indexes_exact {T : Type} [HostingTable T] (inv : Invalid) (events : List Event)
    (s : HostResourceMgr T)
    (hrun : run (HostResourceMgr.step inv) .init events = some s) :
    (∀ k, k ∈ s.cltIndex ↔ ∃ p, s.resourceContainer.find k = some p ∧ p.eType = .user) ∧
    (∀ k, k ∈ s.hostIndex ↔ ∃ p, s.resourceContainer.find k = some p ∧ p.eType = .host) ∧
    (∀ k p, s.resourceContainer.find k = some p → p.lkeyConnection = k) ∧
    s.getHostCount = s.resourceContainer.entries.countP (fun e => e.2.eType = .host) ∧
    ∀ k p, s.resourceContainer.find k = some p →
      s.getCurtypeConnCnt p = s.resourceContainer.entries.countP fun e => e.2.eType = p.eType := by
  have h := Indexed.init.run hrun
  refine ⟨Indexed.mem_index h.clt, Indexed.mem_index h.host, fun k p hp => (h.own k p hp).1,
    h.host.card, ?_⟩
  exact fun k p hp => h.getCurtypeConnCnt hp

/-- A client, the same one described again, an unknown one leaving, and the key
used again by a host. -/
def reusedKey : List Event :=
  [.connectionDescribed (some ⟨5, .user⟩) 1, .connectionDescribed (some ⟨5, .host⟩) 2,
    .connectionDisconnected (some ⟨9, .user⟩), .connectionDisconnected (some ⟨5, .user⟩),
    .connectionDescribed (some ⟨5, .host⟩) 1]

theorem type_indexes_exact_reused :
    ∃ s : HostResourceMgr HostingInfoSet,
      run (HostResourceMgr.step ⟨0, 0⟩) .init reusedKey = some s ∧ s.getHostCount = 1 ∧
      ∀ k, k ∈ s.cltIndex ↔ ∃ p, s.resourceContainer.find k = some p ∧ p.eType = .user :=
  ⟨_, rfl, rfl, (type_indexes_exact ⟨0, 0⟩ reusedKey _ rfl).1⟩

end TestCodes.SvrGame
