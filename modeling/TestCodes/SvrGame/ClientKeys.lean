import TestCodes.SvrGame.TypeIndexes

/-! The client keys of the hosting table. A client that leaves is forgotten by the
LEAVE_CLIENT that it posts, once that is handled. -/
namespace TestCodes.SvrGame
open Machine

section
variable {T : Type}

namespace HostResourceMgr

def isClient (s : HostResourceMgr T) (k : LKEY) : Bool :=
  (s.resourceContainer.find k).any (HostResource.isType .user)

/-- ASSIGN_CLT_HOST is posted for registered clients only. -/
def PostsRegistered (s : HostResourceMgr T) : Event → Prop
  | .pushMsg strMsg _ lkeyClt => strMsg = "ASSIGN_CLT_HOST" → s.isClient lkeyClt = true
  | _ => True

instance (s : HostResourceMgr T) (e : Event) : Decidable (s.PostsRegistered e) :=
  match e with
  | .pushMsg strMsg _ lkeyClt =>
      inferInstanceAs (Decidable (strMsg = "ASSIGN_CLT_HOST" → s.isClient lkeyClt = true))
  | .connectionDescribed .. | .connectionDisconnected _ | .update | .pop | .handle _ =>
      .isTrue trivial

/-- A LEAVE_CLIENT finds its client in at most one entry. -/
def LeavesOne [HostingTable T] (inv : Invalid) (s : HostResourceMgr T) : Event → Prop
  | .handle _ => ∀ repeatCnt k, s.main = .handling repeatCnt (.leaveClient k) → k ≠ inv.lkey →
      ∀ x ∈ s.hostingInfo, ∀ y ∈ s.hostingInfo, x.lkeyCltConn = k → y.lkeyCltConn = k → x = y
  | _ => True

/-- The table is about to forget the key, and nothing that follows assigns it. -/
def Leaving (s : HostResourceMgr T) (k : LKEY) : Prop :=
  ∃ pre post, s.pending = pre ++ .leaveClient k :: post ∧
    ∀ gidStage, .assignCltHost gidStage k ∉ post

/-- The table does not know the key, and nothing that is pending assigns it. -/
def Forgotten [HostingTable T] (s : HostResourceMgr T) (k : LKEY) : Prop :=
  (∀ info ∈ s.hostingInfo, info.lkeyCltConn ≠ k) ∧
    ∀ gidStage, .assignCltHost gidStage k ∉ s.pending

/-- Every key is that of a client, or on its way out, or not in use. -/
def KeysKept [HostingTable T] (inv : Invalid) (s : HostResourceMgr T) : Prop :=
  ∀ k, k ≠ inv.lkey → s.isClient k = false → s.Leaving k ∨ s.Forgotten k

variable {inv : Invalid} {s s' : HostResourceMgr T} {k : LKEY}

theorem isClient_true (h : s.isClient k = true) :
    ∃ p, s.resourceContainer.find k = some p ∧ p.eType = .user := by
  obtain ⟨p, hp, htype⟩ := Option.any_eq_true _ _ |>.mp h
  exact ⟨p, hp, p.isType_true htype⟩

theorem isClient_set (c : LKEY) (p : HostResource) (k : LKEY)
    (h : s'.resourceContainer = s.resourceContainer.set c p) :
    s'.isClient k = if k = c then p.isType .user else s.isClient k := by
  rw [isClient, h, StdMap.find_set]
  split
  · rfl
  · rfl

theorem isClient_eraseKey (c k : LKEY)
    (h : s'.resourceContainer = s.resourceContainer.eraseKey c) :
    s'.isClient k = if k = c then false else s.isClient k := by
  rw [isClient, h, StdMap.find_eraseKey]
  split
  · rfl
  · rfl

theorem Leaving.append (h : s.Leaving k) {msgs : List HostingMsg}
    (hpending : s'.pending = s.pending ++ msgs)
    (hmsgs : ∀ gidStage, .assignCltHost gidStage k ∉ msgs) : s'.Leaving k := by
  obtain ⟨pre, post, hsplit, hpost⟩ := h
  refine ⟨pre, post ++ msgs, ?_, fun gidStage hmem => ?_⟩
  · rw [hpending, hsplit, List.append_assoc, List.cons_append]
  · exact (List.mem_append.mp hmem).elim (hpost gidStage) (hmsgs gidStage)

theorem msgFactory_assignCltHost {strMsg : String} {factory : GID → LKEY → HostingMsg}
    (h : msgFactory strMsg = some factory) {arg1 gidStage : GID} {arg2 : LKEY}
    (hmsg : factory arg1 arg2 = .assignCltHost gidStage k) :
    strMsg = "ASSIGN_CLT_HOST" ∧ arg2 = k := by
  unfold msgFactory at h
  split at h
  · obtain rfl := Option.some.inj h
    exact ⟨rfl, (HostingMsg.assignCltHost.inj hmsg).2⟩
  all_goals cases h <;> cases hmsg

variable [HostingTable T]

theorem Forgotten.append (h : s.Forgotten k) {msgs : List HostingMsg}
    (htable : s'.hostingInfo = s.hostingInfo) (hpending : s'.pending = s.pending ++ msgs)
    (hmsgs : ∀ gidStage, .assignCltHost gidStage k ∉ msgs) : s'.Forgotten k := by
  refine ⟨htable ▸ h.1, fun gidStage hmem => ?_⟩
  rw [hpending] at hmem
  exact (List.mem_append.mp hmem).elim (h.2 gidStage) (hmsgs gidStage)

theorem KeysKept.append (h : s.KeysKept inv) {msgs : List HostingMsg}
    (htable : s'.hostingInfo = s.hostingInfo) (hpending : s'.pending = s.pending ++ msgs)
    (hk : k ≠ inv.lkey) (hgone : s.isClient k = false)
    (hmsgs : ∀ gidStage, .assignCltHost gidStage k ∉ msgs) : s'.Leaving k ∨ s'.Forgotten k :=
  (h k hk hgone).imp (fun hleaving => hleaving.append hpending hmsgs)
    fun hforgotten => hforgotten.append htable hpending hmsgs

theorem KeysKept.congr (h : s.KeysKept inv) (htable : s'.hostingInfo = s.hostingInfo)
    (hpending : s'.pending = s.pending)
    (hclients : ∀ k, s'.isClient k = false → s.isClient k = false) : s'.KeysKept inv :=
  fun k hk hgone => h.append htable (hpending.trans (List.append_nil _).symm) hk
    (hclients k hgone) fun _ => List.not_mem_nil

theorem KeysKept.posted (h : s.KeysKept inv) {strMsg : String} {arg1 : GID} {arg2 : LKEY}
    {factory : GID → LKEY → HostingMsg} (hfactory : msgFactory strMsg = some factory)
    (hposts : s.PostsRegistered (.pushMsg strMsg arg1 arg2)) :
    KeysKept inv (s.post [factory arg1 arg2]) := by
  intro k hk (hgone : s.isClient k = false)
  refine h.append rfl (List.append_assoc _ _ _).symm hk hgone fun gidStage hmem => ?_
  obtain ⟨hname, rfl⟩ := msgFactory_assignCltHost hfactory (List.mem_singleton.mp hmem).symm
  rw [hposts hname] at hgone
  cases hgone

/-- A client that leaves posts its LEAVE_CLIENT behind every message about it. -/
theorem KeysKept.clientLeft (h : s.KeysKept inv) (c : LKEY) (cltIndex : Finset LKEY) :
    KeysKept inv ({ s with
      resourceContainer := s.resourceContainer.eraseKey c
      cltIndex }.post (leaveMsgs inv c)) := by
  intro k hk hgone
  have hpending : HostResourceMgr.pending ({ s with
      resourceContainer := s.resourceContainer.eraseKey c
      cltIndex }.post (leaveMsgs inv c)) = s.pending ++ leaveMsgs inv c :=
    (List.append_assoc _ _ _).symm
  by_cases hc : k = c
  · refine .inl ⟨s.pending, [], hpending.trans ?_, fun _ => List.not_mem_nil⟩
    rw [leaveMsgs, if_neg (hc ▸ hk), hc]
  · rw [isClient_eraseKey (s := s) c k rfl, if_neg hc] at hgone
    refine h.append rfl hpending hk hgone fun gidStage hmem => ?_
    unfold leaveMsgs at hmem
    split at hmem
    · cases hmem
    · cases List.mem_singleton.mp hmem

variable [HostingTable.Lawful T]

theorem KeysKept.init : KeysKept inv (.init : HostResourceMgr T) :=
  fun _ _ _ => .inr
    ⟨fun _ h => absurd h (HostingTable.not_mem_empty _), fun _ => List.not_mem_nil⟩

/-- The operator of a message does to a key what its place in the queue promised. -/
theorem KeysKept.handled (h : s.KeysKept inv) {repeatCnt : ℕ} {pMsg : HostingMsg}
    {isExistConnection : LKEY → Bool} (hmain : s.main = .handling repeatCnt pMsg)
    (hone : s.LeavesOne inv (.handle isExistConnection)) :
    KeysKept inv { s.handle inv isExistConnection pMsg with main := .looping repeatCnt } := by
  intro k hk (hgone : s.isClient k = false)
  have hpending := pending_handling hmain
  rcases h k hk hgone with ⟨pre, post, hsplit, hpost⟩ | ⟨hfree, hassign⟩
  · rw [hpending] at hsplit
    cases pre with
    | nil =>
        obtain ⟨rfl, rfl⟩ := List.cons.inj hsplit
        exact .inr ⟨fun info => HostingMsg.apply_leaveClient hk (hone _ _ hmain hk), hpost⟩
    | cons m pre =>
        obtain ⟨rfl, hqueue⟩ := List.cons.inj hsplit
        exact .inl ⟨pre, post, hqueue, hpost⟩
  · rw [hpending] at hassign
    refine .inr ⟨fun info hinfo hkey => ?_, fun gidStage => ?_⟩
    · rcases HostingMsg.apply_clt hinfo with hinv | ⟨gidStage, hmsg⟩ | ⟨x, hx, hxkey⟩
      · exact hk (hkey.symm.trans hinv)
      · rw [hkey] at hmsg
        exact hassign gidStage (hmsg ▸ List.mem_cons_self)
      · exact hfree x hx (hxkey.trans hkey)
    · exact fun hmem => hassign gidStage (List.mem_cons_of_mem _ hmem)

theorem KeysKept.step (h : s.KeysKept inv) (hindexed : Indexed s) {e : Event}
    (hposts : s.PostsRegistered e) (hone : s.LeavesOne inv e) (he : s.step inv e = some s') :
    s'.KeysKept inv := by
  cases step_cases he with
  | same | unneeded => exact h
  | posted hfactory => exact h.posted hfactory hposts
  | @clientEntered c address =>
      refine h.congr rfl rfl fun k hgone => ?_
      rw [isClient_set (s := s) c.lkey _ k rfl] at hgone
      split at hgone
      · cases hgone
      · exact hgone
  | @hostEntered c address _ hnone =>
      refine h.congr rfl rfl fun k hgone => ?_
      rw [isClient_set (s := s) c.lkey _ k rfl] at hgone
      split at hgone
      · rw [isClient, ‹k = c.lkey›, hnone]
        rfl
      · exact hgone
  | clientLeft hp htype =>
      rw [(hindexed.own _ _ hp).1]
      exact h.clientLeft _ _
  | @otherLeft c p hp htype =>
      refine h.congr rfl rfl fun k hgone => ?_
      rw [isClient_eraseKey (s := s) c.lkey k rfl] at hgone
      split at hgone
      · rw [isClient, ‹k = c.lkey›, hp]
        exact p.isType_false htype
      · exact hgone
  | begun hmain => exact h.congr rfl (pending_idle hmain).symm fun k hgone => hgone
  | ended hmain => exact h.congr rfl (pending_looping hmain).symm fun k hgone => hgone
  | popped hmain _ hqueue =>
      exact h.congr rfl (pending_popped hmain hqueue) fun k hgone => hgone
  | handled hmain => exact h.handled hmain hone

end HostResourceMgr
end

/-- Once all messages of a run are handled, the table names clients that are registered,
provided that each LEAVE_CLIENT found its client in at most one entry. -/
theorem left_clients_forgotten {T : Type} [HostingTable T] [HostingTable.Lawful T] (inv : Invalid)
    (events : List Event) (s : HostResourceMgr T)
    (hposts : Along (HostResourceMgr.step inv) HostResourceMgr.PostsRegistered
      (.init : HostResourceMgr T) events)
    (hone : Along (HostResourceMgr.step inv) (HostResourceMgr.LeavesOne inv)
      (.init : HostResourceMgr T) events)
    (hrun : run (HostResourceMgr.step inv) .init events = some s) (hdone : s.pending = []) :
    ∀ info ∈ s.hostingInfo, info.lkeyCltConn = inv.lkey ∨
      ∃ p, s.resourceContainer.find info.lkeyCltConn = some p ∧ p.eType = .user := by
  have hkept : Indexed s ∧ s.KeysKept inv := by
    refine run_invariant (fun s => Indexed s ∧ s.KeysKept inv) ?_ ⟨.init, .init⟩
      (hposts.and hone) hrun
    exact fun s e t h hok he => ⟨h.1.step he, h.2.step h.1 hok.1 hok.2 he⟩
  intro info hinfo
  by_cases hinv : info.lkeyCltConn = inv.lkey
  · exact .inl hinv
  · cases hclient : s.isClient info.lkeyCltConn with
    | true => exact .inr (HostResourceMgr.isClient_true hclient)
    | false =>
        rcases hkept.2 _ hinv hclient with ⟨pre, post, hsplit, -⟩ | ⟨hfree, -⟩
        · rw [hdone] at hsplit
          exact absurd (List.append_eq_nil_iff.mp hsplit.symm).2 (List.cons_ne_nil _ post)
        · exact absurd rfl (hfree info hinfo)

def drain (n : ℕ) : List Event :=
  .update :: (List.replicate n [.pop, .handle fun _ => true]).flatten ++ [.pop]

/-- A client serves some stages and leaves. -/
def clientServes (stages : List GID) : List Event :=
  .connectionDescribed (some ⟨5, .user⟩) 1 ::
    stages.map (.pushMsg "CREATE_INSTANCE_ZONE" · 0) ++
    stages.map (.pushMsg "ASSIGN_CLT_HOST" · 5) ++ drain (2 * stages.length) ++
    .connectionDisconnected (some ⟨5, .user⟩) :: drain 1

theorem left_clients_forgotten_one :
    ∃ s : HostResourceMgr HostingInfoSet,
      run (HostResourceMgr.step ⟨0, 0⟩) .init (clientServes [1]) = some s ∧
      s.hostingInfo.primary.entries = [⟨1, 0, 0⟩] ∧
      ∀ info ∈ s.hostingInfo, info.lkeyCltConn = 0 ∨
        ∃ p, s.resourceContainer.find info.lkeyCltConn = some p ∧ p.eType = .user := by
  refine ⟨_, rfl, rfl, left_clients_forgotten ⟨0, 0⟩ (clientServes [1]) _ ?_ ?_ rfl rfl⟩
  · decide
  · refine ⟨trivial, trivial, trivial, trivial, trivial, nofun, trivial, nofun, trivial, trivial,
      trivial, trivial, ?_, trivial, trivial⟩
    intro repeatCnt k hmain hk x hx y hy _ _
    exact (List.mem_singleton.mp hx).trans (List.mem_singleton.mp hy).symm

def Event.comes : Event → Option LKEY
  | .connectionDescribed (some c) _ => some c.lkey
  | _ => none

/-- The client of two stages leaves, and one of them still names it. -/
theorem left_client_named :
    ¬ ∀ (events : List Event) (s : HostResourceMgr HostingInfoSet),
      (events.filterMap Event.comes).Nodup →
      Along (HostResourceMgr.step ⟨0, 0⟩) HostResourceMgr.PostsRegistered
        (.init : HostResourceMgr HostingInfoSet) events →
      run (HostResourceMgr.step ⟨0, 0⟩) .init events = some s → s.pending = [] →
      ∀ info ∈ s.hostingInfo, info.lkeyCltConn = 0 ∨
        ∃ p, s.resourceContainer.find info.lkeyCltConn = some p ∧ p.eType = .user := by
  intro h
  have hnamed := h (clientServes [1, 2]) _ (by decide) (by decide) rfl rfl ⟨1, 5, 0⟩ (by decide)
  rcases hnamed with hinv | ⟨p, hp, -⟩
  · cases hinv
  · cases hp

end TestCodes.SvrGame
