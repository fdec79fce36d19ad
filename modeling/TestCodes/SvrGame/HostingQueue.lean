import TestCodes.SvrGame.HostResourceMgr

/-! The message queue of the hosting table: whatever the threads do, messages are
handled in the order of their pushes, at most 99 of them in one `Update`. -/
namespace TestCodes.SvrGame
open Machine

section
variable {T : Type} [HostingTable T]

def HostingMsg.applyAll (inv : Invalid) (msgs : List HostingMsg) (s : T) : T :=
  msgs.foldl (fun s msg => msg.apply inv s) s

theorem HostingMsg.applyAll_append (inv : Invalid) (msgs : List HostingMsg) (msg : HostingMsg)
    (s : T) : applyAll inv (msgs ++ [msg]) s = msg.apply inv (applyAll inv msgs s) :=
  List.foldl_append

namespace HostResourceMgr

/-- What entered the queue has been handled, in order, or is pending. -/
structure InOrder (inv : Invalid) (s : HostResourceMgr T) : Prop where
  pushed : s.pushed = s.handled ++ s.pending
  table : s.hostingInfo = HostingMsg.applyAll inv s.handled HostingTable.empty

variable {inv : Invalid} {s s' : HostResourceMgr T}

theorem InOrder.init : InOrder inv (.init : HostResourceMgr T) := ⟨rfl, rfl⟩

theorem InOrder.post (h : s.InOrder inv) (msgs : List HostingMsg) : (s.post msgs).InOrder inv where
  pushed := by
    have hpending : (s.post msgs).pending = s.pending ++ msgs := (List.append_assoc _ _ _).symm
    rw [hpending, ← List.append_assoc]
    exact congrArg (· ++ msgs) h.pushed
  table := h.table

theorem InOrder.congr (h : s.InOrder inv) (hpushed : s'.pushed = s.pushed)
    (hhandled : s'.handled = s.handled) (hpending : s'.pending = s.pending)
    (htable : s'.hostingInfo = s.hostingInfo) : s'.InOrder inv :=
  ⟨by rw [hpushed, hhandled, hpending, h.pushed], by rw [htable, hhandled, h.table]⟩

theorem InOrder.step (h : s.InOrder inv) {e : Event} (he : s.step inv e = some s') :
    s'.InOrder inv := by
  cases step_cases he with
  | same | unneeded => exact h
  | posted => exact h.post _
  | clientEntered | hostEntered | otherLeft => exact h.congr rfl rfl rfl rfl
  | clientLeft =>
      refine InOrder.post (h.congr ?_ ?_ ?_ ?_) _ <;> rfl
  | begun hmain => exact h.congr rfl rfl (pending_idle hmain).symm rfl
  | ended hmain => exact h.congr rfl rfl (pending_looping hmain).symm rfl
  | popped hmain _ hqueue => exact h.congr rfl rfl (pending_popped hmain hqueue) rfl
  | @handled _ _ pMsg hmain =>
      refine ⟨?_, ?_⟩
      · have hpushed := h.pushed
        rw [pending_handling hmain] at hpushed
        exact hpushed.trans (List.append_assoc _ [pMsg] _).symm
      · have htable := congrArg (pMsg.apply inv) h.table
        exact htable.trans (HostingMsg.applyAll_append inv _ _ _).symm

end HostResourceMgr

def Event.isUpdate : Event → Bool
  | .update => true
  | _ => false

namespace HostResourceMgr

/-- `c` messages of the queue at the start are handled, and no other. -/
structure HandledUpTo (inv : Invalid) (s₀ : HostResourceMgr T) (c : ℕ) (s : HostResourceMgr T) :
    Prop where
  pending : s.pending = s₀.msgQueue.drop c
  handled : s.handled = s₀.handled ++ s₀.msgQueue.take c
  table : s.hostingInfo = HostingMsg.applyAll inv (s₀.msgQueue.take c) s₀.hostingInfo

/-- How many messages are handled when the `j`-th `Update` stands there. -/
def Budget (j : ℕ) : MainThread → ℕ → Prop
  | .idle, c => c = 99 * j
  | .looping repeatCnt, c => 1 ≤ repeatCnt ∧ c + repeatCnt = 99 * j + 1
  | .handling repeatCnt _, c => 1 ≤ repeatCnt ∧ c + repeatCnt = 99 * j

/-- The state within or after the `j`-th `Update` from `s₀` on. -/
def InUpdate (inv : Invalid) (s₀ : HostResourceMgr T) (j : ℕ) (s : HostResourceMgr T) : Prop :=
  ∃ c, HandledUpTo inv s₀ c s ∧ Budget j s.main c

variable {inv : Invalid} {s s' s₀ : HostResourceMgr T} {j : ℕ}

theorem HandledUpTo.all {c k : ℕ} (h : HandledUpTo inv s₀ c s) (hnil : s.pending = [])
    (hck : c ≤ k) : HandledUpTo inv s₀ k s := by
  have hlength : s₀.msgQueue.length ≤ c := List.drop_eq_nil_iff.mp (h.pending ▸ hnil)
  have hc := List.take_of_length_le hlength
  have hk := List.take_of_length_le (hlength.trans hck)
  refine ⟨?_, ?_, ?_⟩
  · rw [hnil, List.drop_of_length_le (hlength.trans hck)]
  · rw [h.handled, hc, hk]
  · rw [h.table, hc, hk]

theorem HandledUpTo.handle {c repeatCnt n : ℕ} {pMsg : HostingMsg}
    {isExistConnection : LKEY → Bool} (h : HandledUpTo inv s₀ c s)
    (hmain : s.main = .handling repeatCnt pMsg) :
    HandledUpTo inv s₀ (c + 1)
      { s.handle inv isExistConnection pMsg with main := .looping n } := by
  have hdrop := h.pending
  rw [pending_handling hmain] at hdrop
  have htake : s₀.msgQueue.take (c + 1) = s₀.msgQueue.take c ++ [pMsg] := by
    rw [List.take_add, ← hdrop]
    rfl
  refine ⟨?_, ?_, ?_⟩
  · rw [← List.drop_drop, ← hdrop]
    rfl
  · rw [htake, ← List.append_assoc]
    exact congrArg (· ++ [pMsg]) h.handled
  · rw [htake, HostingMsg.applyAll_append]
    exact congrArg (pMsg.apply inv) h.table

/-- A step that is not taken by `Update` touches neither the messages nor the loop
unless it pushes something. -/
theorem InUpdate.congr (h : InUpdate inv s₀ j s) (hqueue : s'.msgQueue = s.msgQueue)
    (hmain : s'.main = s.main) (hhandled : s'.handled = s.handled)
    (htable : s'.hostingInfo = s.hostingInfo) : InUpdate inv s₀ j s' := by
  obtain ⟨c, hup, hbudget⟩ := h
  refine ⟨c, ⟨?_, hhandled.trans hup.handled, htable.trans hup.table⟩, hmain ▸ hbudget⟩
  rw [← hup.pending, pending, hmain, hqueue, pending]

theorem InUpdate.post (h : InUpdate inv s₀ j s) {msgs : List HostingMsg}
    (hpushed : (s.post msgs).pushed = s.pushed) : InUpdate inv s₀ j (s.post msgs) := by
  obtain rfl : msgs = [] := List.append_right_eq_self.mp hpushed
  rwa [post_nil]

/-- The loop stops after its 99th message, or when it finds the queue empty. -/
theorem InUpdate.step (h : InUpdate inv s₀ j s) {e : Event} (he : s.step inv e = some s')
    (hpushed : s'.pushed = s.pushed) : InUpdate inv s₀ (j + if e.isUpdate then 1 else 0) s' := by
  cases step_cases he with
  | @same e hother =>
      cases e with
      | update => cases hother
      | _ => exact h
  | posted => exact h.post hpushed
  | clientEntered | hostEntered | otherLeft => exact h.congr rfl rfl rfl rfl
  | clientLeft =>
      refine InUpdate.post (h.congr ?_ ?_ ?_ ?_) hpushed <;> rfl
  | unneeded hmain hempty =>
      obtain ⟨c, hup, hbudget⟩ := h
      rw [hmain] at hbudget
      have hc : c = 99 * j := hbudget
      refine ⟨99 * (j + 1), hup.all ((pending_idle hmain).trans hempty) (by omega), ?_⟩
      rw [hmain]
      rfl
  | begun hmain =>
      obtain ⟨c, hup, hbudget⟩ := h
      rw [hmain] at hbudget
      have hc : c = 99 * j := hbudget
      have hsum : c + 100 = 99 * (j + 1) + 1 := by omega
      exact ⟨c, ⟨(pending_idle hmain).symm.trans hup.pending, hup.handled, hup.table⟩,
        by decide, hsum⟩
  | @ended repeatCnt hmain hlast =>
      obtain ⟨c, hup, hbudget⟩ := h
      rw [hmain] at hbudget
      obtain ⟨hone, hsum⟩ := hbudget
      have hidle : HandledUpTo inv s₀ c { s with main := .idle } :=
        ⟨(pending_looping hmain).symm.trans hup.pending, hup.handled, hup.table⟩
      rcases hlast with hlast | hempty
      · have hc : c = 99 * j := by omega
        exact ⟨c, hidle, hc⟩
      · exact ⟨99 * j, hidle.all hempty (by omega), rfl⟩
  | @popped repeatCnt pMsg msgQueue hmain hmore hqueue =>
      obtain ⟨c, hup, hbudget⟩ := h
      rw [hmain] at hbudget
      obtain ⟨hone, hsum⟩ := hbudget
      have hsum' : c + (repeatCnt - 1) = 99 * j := by omega
      exact ⟨c, ⟨(pending_popped hmain hqueue).trans hup.pending, hup.handled, hup.table⟩,
        by omega, hsum'⟩
  | @handled _ repeatCnt pMsg hmain =>
      obtain ⟨c, hup, hbudget⟩ := h
      rw [hmain] at hbudget
      obtain ⟨hone, hsum⟩ := hbudget
      have hsum' : c + 1 + repeatCnt = 99 * j + 1 := by omega
      exact ⟨c + 1, hup.handle hmain, hone, hsum'⟩

theorem step_pushed {e : Event} (he : s.step inv e = some s') : s.pushed <+: s'.pushed := by
  cases step_cases he with
  | posted | clientLeft => exact List.prefix_append _ _
  | _ => exact List.prefix_rfl

theorem run_pushed {events : List Event}
    (hrun : Machine.run (HostResourceMgr.step inv) s events = some s') : s.pushed <+: s'.pushed :=
  run_keeps (s.pushed <+: ·.pushed) (fun _ _ _ h he => h.trans (step_pushed he))
    List.prefix_rfl hrun

theorem InUpdate.run (h : InUpdate inv s₀ j s) {events : List Event}
    (hrun : run (HostResourceMgr.step inv) s events = some s') (hpushed : s'.pushed = s.pushed) :
    InUpdate inv s₀ (j + events.countP Event.isUpdate) s' := by
  induction events generalizing s j with
  | nil => exact Option.some.inj hrun ▸ h
  | cons e events ih =>
      rw [run_cons] at hrun
      obtain ⟨t, he, hrest⟩ := Option.bind_eq_some_iff.mp hrun
      have ht : t.pushed = s.pushed := by
        refine List.IsPrefix.eq_of_length_le ?_ (step_pushed he).length_le
        rw [← hpushed]
        exact run_pushed hrest
      have hnext := ih (h.step he ht) hrest (hpushed.trans ht.symm)
      rwa [List.countP_cons, Nat.add_comm (events.countP _), ← Nat.add_assoc]

theorem InUpdate.start (hidle : s.main = .idle) : InUpdate inv s 0 s := by
  refine ⟨0, ⟨pending_idle hidle, (List.append_nil _).symm, rfl⟩, ?_⟩
  rw [hidle]
  rfl

theorem step_pop_last {repeatCnt : ℕ} (hlooping : s.main = .looping repeatCnt)
    (hlast : repeatCnt ≤ 1 ∨ s.msgQueue = []) :
    s.step inv .pop = some { s with main := .idle } := by
  simp only [HostResourceMgr.step, hlooping]
  split
  · rfl
  · rw [hlast.resolve_left (by omega)]

theorem step_pop_next {repeatCnt : ℕ} (hlooping : s.main = .looping repeatCnt)
    (hmore : ¬ repeatCnt ≤ 1) {pMsg : HostingMsg} {msgQueue : List HostingMsg}
    (hqueue : s.msgQueue = pMsg :: msgQueue) :
    s.step inv .pop = some { s with msgQueue, main := .handling (repeatCnt - 1) pMsg } := by
  simp only [HostResourceMgr.step, hlooping, hqueue]
  rw [if_neg (by omega)]

def GoesOn (inv : Invalid) : HostResourceMgr T → HostResourceMgr T → Prop :=
  PerformsWithin (HostResourceMgr.step inv) (fun e => e.ofUpdate = true) Event.isUpdate 0

theorem loop_ends (inv : Invalid) (repeatCnt : ℕ) (s : HostResourceMgr T)
    (hlooping : s.main = .looping repeatCnt) : ∃ t, GoesOn inv s t ∧ t.main = .idle := by
  by_cases hlast : repeatCnt ≤ 1 ∨ s.msgQueue = []
  · exact ⟨_, .single (e := .pop) rfl nofun (step_pop_last hlooping hlast), rfl⟩
  · obtain ⟨hmore, hne⟩ := not_or.mp hlast
    obtain ⟨pMsg, msgQueue, hqueue⟩ := List.exists_cons_of_ne_nil hne
    have hpop : GoesOn inv s { s with msgQueue, main := .handling (repeatCnt - 1) pMsg } :=
      .single (e := .pop) rfl nofun (step_pop_next hlooping hmore hqueue)
    obtain ⟨s', hhandle, hlooping'⟩ : ∃ s', GoesOn inv
        { s with msgQueue, main := .handling (repeatCnt - 1) pMsg } s' ∧
        s'.main = .looping (repeatCnt - 1) :=
      ⟨_, .single (e := .handle fun _ => false) rfl nofun rfl, rfl⟩
    obtain ⟨t, ht, hidle⟩ := loop_ends inv (repeatCnt - 1) s' hlooping'
    exact ⟨t, (hpop.trans hhandle).trans ht, hidle⟩
termination_by repeatCnt

/-- However many calls of `Update` there are to be, they return. -/
theorem updates_end (inv : Invalid) (j : ℕ) (s : HostResourceMgr T) (hidle : s.main = .idle) :
    ∃ events t, (∀ e ∈ events, e.ofUpdate = true) ∧ events.countP Event.isUpdate = j ∧
      Machine.run (HostResourceMgr.step inv) s events = some t ∧ t.main = .idle := by
  induction j generalizing s with
  | zero => exact ⟨[], s, by simp, rfl, rfl, hidle⟩
  | succ j ih =>
      obtain ⟨u, hupdate, t, ⟨es, hes, hcount, hrun⟩, ht⟩ : ∃ u, s.step inv .update = some u ∧
          ∃ t, GoesOn inv u t ∧ t.main = .idle := by
        simp only [HostResourceMgr.step, hidle]
        refine ⟨_, rfl, ?_⟩
        split
        · exact ⟨s, .refl _ _ _ _ s, hidle⟩
        · exact loop_ends inv 100 _ rfl
      obtain ⟨events, t', hof, hj, hrun', ht'⟩ := ih t ht
      refine ⟨.update :: es ++ events, t', ?_, ?_, ?_, ht'⟩
      · simp only [List.cons_append, List.forall_mem_cons, List.forall_mem_append]
        exact ⟨rfl, hes, hof⟩
      · rw [List.cons_append, List.countP_cons_of_pos rfl, List.countP_append,
          Nat.le_zero.mp hcount, hj, Nat.zero_add]
      · rw [List.cons_append, run_cons, hupdate, Option.bind_some, run_append, hrun]
        exact hrun'

theorem ofUpdate_pushed {e : Event} (hof : e.ofUpdate = true) (he : s.step inv e = some s') :
    s'.pushed = s.pushed := by
  cases step_cases he with
  | posted | clientLeft => cases hof
  | _ => rfl

theorem updates_pushed {events : List Event} (hof : ∀ e ∈ events, e.ofUpdate = true)
    (hrun : Machine.run (HostResourceMgr.step inv) s events = some s') : s'.pushed = s.pushed := by
  have hperforms : Performs (HostResourceMgr.step inv) (fun e => e.ofUpdate = true) s s' :=
    ⟨events, hof, hrun⟩
  exact hperforms.invariant (·.pushed = s.pushed)
    (fun _ _ _ h hof he => (ofUpdate_pushed hof he).trans h) rfl

end HostResourceMgr
end

/-- Messages are handled in the order of their pushes, each once, and the table is what
handling them one after another makes of it. From a state between two calls on, and as
long as nothing is pushed, the messages of the queue are gone after as many calls of
`Update` as there are batches of 99, and not before. -/
theorem hosting_messages_in_order {T : Type} [HostingTable T] (inv : Invalid)
    (events : List Event) (s : HostResourceMgr T)
    (hrun : run (HostResourceMgr.step inv) .init events = some s) :
    s.handled <+: s.pushed ∧ s.pushed = s.handled ++ s.pending ∧
    s.hostingInfo = HostingMsg.applyAll inv s.handled HostingTable.empty ∧
    (s.main = .idle → ∀ j,
      (∃ updates t, (∀ e ∈ updates, e.ofUpdate = true) ∧ updates.countP Event.isUpdate = j ∧
        run (HostResourceMgr.step inv) s updates = some t ∧ t.pushed = s.pushed ∧
        t.main = .idle) ∧
      ∀ rest t, rest.countP Event.isUpdate = j → run (HostResourceMgr.step inv) s rest = some t →
        t.pushed = s.pushed → t.main = .idle →
        (t.msgQueue = [] ↔ (s.msgQueue.length + 98) / 99 ≤ j) ∧
        t.handled = s.handled ++ s.msgQueue.take (99 * j) ∧
        t.hostingInfo = HostingMsg.applyAll inv (s.msgQueue.take (99 * j)) s.hostingInfo) := by
  have horder : s.InOrder inv :=
    run_keeps (HostResourceMgr.InOrder inv) (fun _ _ _ h he => h.step he) .init hrun
  refine ⟨⟨_, horder.pushed.symm⟩, horder.pushed, horder.table, fun hidle j => ⟨?_, ?_⟩⟩
  · obtain ⟨updates, t, hof, hj, hupdates, ht⟩ := HostResourceMgr.updates_end inv j s hidle
    exact ⟨updates, t, hof, hj, hupdates, HostResourceMgr.updates_pushed hof hupdates, ht⟩
  · intro rest t hj hrest hpushed ht
    obtain ⟨c, hup, hbudget⟩ := (HostResourceMgr.InUpdate.start hidle).run hrest hpushed
    rw [ht, hj, Nat.zero_add] at hbudget
    obtain rfl : c = 99 * j := hbudget
    refine ⟨?_, hup.handled, hup.table⟩
    rw [← HostResourceMgr.pending_idle ht, hup.pending, List.drop_eq_nil_iff]
    omega

/-- A message comes while another one is handled, a name is unknown, and one message
is left for the next call. -/
def postedMeanwhile : List Event :=
  [.pushMsg "CREATE_INSTANCE_ZONE" 1 0, .pushMsg "LEAVE_ZONE" 1 5, .update, .pop,
    .pushMsg "ASSIGN_CLT_HOST" 1 5, .handle fun _ => true, .pop, .handle fun _ => true, .pop,
    .pushMsg "LEAVE_CLIENT" 0 5]

theorem hosting_messages_in_order_meanwhile :
    ∃ s : HostResourceMgr HostingInfoSet,
      run (HostResourceMgr.step ⟨0, 0⟩) .init postedMeanwhile = some s ∧
      s.handled = [.createInstanceZone 1, .assignCltHost 1 5] ∧ s.handled <+: s.pushed ∧
      ∃ updates t, updates.countP Event.isUpdate = 1 ∧
        run (HostResourceMgr.step ⟨0, 0⟩) s updates = some t ∧ t.msgQueue = [] := by
  obtain ⟨horder, -, -, hdrain⟩ :=
    hosting_messages_in_order (T := HostingInfoSet) ⟨0, 0⟩ postedMeanwhile _ rfl
  obtain ⟨⟨updates, t, -, hone, hrun, hpushed, hidle⟩, hends⟩ := hdrain rfl 1
  refine ⟨_, rfl, rfl, horder, updates, t, hone, hrun, ?_⟩
  exact (hends updates t hone hrun hpushed hidle).1.mpr (by decide)

end TestCodes.SvrGame
