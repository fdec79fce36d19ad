import TestCodes.AuthProvider.ConnectionState

/-! The manager of the communicators: which of them a signalled event reaches, and
which of them can be sent to. The sends that a message handler makes are sends of
their own here, beside the round that handles the message. -/
namespace TestCodes.AuthProvider
open Machine

abbrev wsaMaximumWaitEvents : ℕ := 64

/-- `communicators`, with NULL for those that are not created. A wait takes no more
events than `wsaMaximumWaitEvents`. -/
structure NetComManager where
  communicators : List (Option NetCommunicator)
  waitable : communicators.length ≤ wsaMaximumWaitEvents

/-- What `WSAWaitForMultipleEvents` answers. -/
inductive WaitResult where
  | event (i : Fin wsaMaximumWaitEvents)
  | timeout
  | failed
  deriving DecidableEq

/-- The answer as a DWORD; WSA_WAIT_EVENT_0 is 0. -/
def WaitResult.dword : WaitResult → UInt32
  | .event i => UInt32.ofNat i.val
  | .timeout => 258
  | .failed => 0xFFFFFFFF

def WaitResult.evtIdx (dwResult : WaitResult) : Int := dwResult.dword.toBitVec.toInt

/-- One round: what the connects, the wait and the calls for the signalled communicator
come to. -/
structure WaitRound where
  connect : ℕ → ConnectEnv
  dwResult : WaitResult
  env : EventEnv
  enumeration : Enumeration

namespace NetComManager

def tryConnect (m : NetComManager) (connect : ℕ → ConnectEnv) : NetComManager where
  communicators := m.communicators.mapIdx fun i communicator =>
    communicator.map fun c => c.tryConnect (connect i)
  waitable := by
    rw [List.length_mapIdx]
    exact m.waitable

def replace (m : NetComManager) (i : ℕ) (c : NetCommunicator) : NetComManager where
  communicators := m.communicators.set i (some c)
  waitable := by
    rw [List.length_set]
    exact m.waitable

/-- `communicators[i]`, when it is created. -/
def communicator (m : NetComManager) (i : ℕ) : Option NetCommunicator := m.communicators[i]?.join

/-- The communicator that is called, and what its branches find in `networkEvents`. -/
def signalled (r : WaitRound) (m : NetComManager) : Option (ℕ × Option NetworkEvents) :=
  let evtIdx := r.dwResult.evtIdx
  if evtIdx > 0 ∧ evtIdx < m.communicators.length then
    some (evtIdx.toNat, r.enumeration.networkEvents)
  else none

/-- No result is a call through NULL, or a `RecvAndProcMsg` that is still running. -/
def processSocketEvents (receivers : ℕ → Receiver) (r : WaitRound) (m : NetComManager) :
    Option NetComManager :=
  let m := m.tryConnect r.connect
  match m.signalled r with
  | none => some m
  | some (i, networkEvents) => (m.communicator i).bind fun c =>
      (c.processSocketEvents (receivers i) r.env networkEvents).map (m.replace i)

/-- No result is a call through NULL, or an assertion that fails: its message formats `__LINE__`
with `%s`, which ends the process. -/
def sendTo (eCommunicator : ℕ) (choice : SendChoice) (req : SendData) (m : NetComManager) :
    Option (Bool × NetComManager) :=
  if ¬ (eCommunicator > 0 ∧ eCommunicator < m.communicators.length) then none
  else (m.communicator eCommunicator).map fun c =>
    let (sent, sockInterface) := c.sockInterface.sendMsg choice req
    (sent, m.replace eCommunicator { c with sockInterface })

end NetComManager

inductive ManagerEvent where
  | processSocketEvents (r : WaitRound)
  | sendTo (eCommunicator : ℕ) (choice : SendChoice) (req : SendData)
  | arrive (i : ℕ) (chunk : List UInt8)

namespace NetComManager

def step (receivers : ℕ → Receiver) (m : NetComManager) : ManagerEvent → Option NetComManager
  | .processSocketEvents r => m.processSocketEvents receivers r
  | .sendTo eCommunicator choice req => (m.sendTo eCommunicator choice req).map Prod.snd
  | .arrive i chunk => some ((m.communicator i).elim m fun c => m.replace i (c.arrive chunk))

/-- The round whose wait reports `i` hands the pending events to `communicators[i]`. -/
structure ServesRound (receivers : ℕ → Receiver) (r : WaitRound) (i : ℕ) (c : NetCommunicator)
    (m : NetComManager) : Prop where
  handed : (m.tryConnect r.connect).signalled r = some (i, some r.enumeration.pending)
  processed : m.processSocketEvents receivers r =
    ((c.tryConnect (r.connect i)).processSocketEvents (receivers i) r.env
      (some r.enumeration.pending)).map ((m.tryConnect r.connect).replace i)
  others : ∀ m', m.processSocketEvents receivers r = some m' → ∀ j, j ≠ i →
    m'.communicator j = (m.communicator j).map fun d => d.tryConnect (r.connect j)
  ready : r.enumeration.pending.fdConnect = some 0 →
    (c.tryConnect (r.connect i)).eState = .connecting →
    (∀ m', m.processSocketEvents receivers r = some m' →
      ∃ c', m'.communicator i = some c' ∧ c'.eState = .ready) ∧
    (r.enumeration.pending.fdRead = none → (m.processSocketEvents receivers r).isSome)

/-- The communicator that the event is about is served, or its message is passed on. -/
def Serves (receivers : ℕ → Receiver) (m : NetComManager) : ManagerEvent → Prop
  | .processSocketEvents r => ∀ i c, r.dwResult = .event i → m.communicator i = some c →
      m.ServesRound receivers r i c
  | .sendTo i choice req => ∀ c, m.communicator i = some c →
      m.sendTo i choice req = some ((c.sockInterface.sendMsg choice req).1,
        m.replace i { c with sockInterface := (c.sockInterface.sendMsg choice req).2 })
  | .arrive .. => True

end NetComManager

/-- The second call comes upon what was pending at the first. -/
def Enumeration.Repeats (e : Enumeration) : Prop :=
  e.second = true ∧ (if e.first then e.since else e.pending.add e.since) = e.pending

theorem Enumeration.networkEvents_eq_iff (e : Enumeration) :
    e.networkEvents = some e.pending ↔ e.Repeats := by
  have hnone : ∀ since, NetworkEvents.none.add since = since := by
    rintro ⟨fdConnect, fdClose, fdRead, fdWrite⟩
    simp [NetworkEvents.add, NetworkEvents.none]
  unfold Enumeration.networkEvents Repeats wsaEnumNetworkEvents
  cases e.first <;> cases e.second <;> simp [hnone]

namespace NetComManager

/-- The event is not about the first communicator, and the one that is signalled finds the pending
events when it looks for the second time. -/
def Reaches (m : NetComManager) : ManagerEvent → Prop
  | .processSocketEvents r => ∀ i c, r.dwResult = .event i → m.communicator i = some c →
      i ≠ 0 ∧ r.enumeration.Repeats
  | .sendTo i _ _ => m.communicator i ≠ none → i ≠ 0
  | .arrive .. => True

variable {receivers : ℕ → Receiver} {m : NetComManager} {i j : ℕ} {c c' : NetCommunicator}

theorem evtIdx_event (i : Fin wsaMaximumWaitEvents) : (WaitResult.event i).evtIdx = i.val := by
  revert i
  decide

theorem lt_of_communicator (h : m.communicator i = some c) : i < m.communicators.length := by
  by_contra hout
  rw [communicator, List.getElem?_eq_none (Nat.not_lt.mp hout)] at h
  cases h

theorem communicator_tryConnect (m : NetComManager) (connect : ℕ → ConnectEnv) (j : ℕ) :
    (m.tryConnect connect).communicator j =
      (m.communicator j).map fun d => d.tryConnect (connect j) := by
  simp only [communicator, tryConnect, List.getElem?_mapIdx]
  cases m.communicators[j]? with
  | none => rfl
  | some d => rfl

theorem length_tryConnect (m : NetComManager) (connect : ℕ → ConnectEnv) :
    (m.tryConnect connect).communicators.length = m.communicators.length := List.length_mapIdx

theorem communicator_replace_self (hi : i < m.communicators.length) (c : NetCommunicator) :
    (m.replace i c).communicator i = some c := by
  rw [communicator, replace, List.getElem?_set_self hi]
  rfl

theorem communicator_replace_ne (h : j ≠ i) (c : NetCommunicator) :
    (m.replace i c).communicator j = m.communicator j := by
  rw [communicator, replace, List.getElem?_set_ne h.symm]
  rfl

end NetComManager

section
variable {R : Receiver} {env : EventEnv} {events : NetworkEvents} {c c' : NetCommunicator}

theorem processWrite_eState (fdWrite : Option Int) :
    (c.processWrite env fdWrite).eState = c.eState := by
  unfold NetCommunicator.processWrite
  split
  · rfl
  · split <;> rfl

/-- No event other than FD_CONNECT sets a state. -/
theorem processOpen_eState (h : c.processOpen R env events = some c') : c'.eState = c.eState := by
  unfold NetCommunicator.processOpen at h
  split at h
  · rw [← Option.some.inj h]
    rfl
  · split at h
    · rw [← Option.some.inj h]
      rfl
    · split at h
      · obtain ⟨c₁, hrecv, rfl⟩ := Option.map_eq_some_iff.mp h
        exact (processWrite_eState _).trans (recvAndProcMsg_link hrecv).1
      · rw [← Option.some.inj h, processWrite_eState]

theorem processOpen_isSome (hread : events.fdRead = none) :
    (c.processOpen R env events).isSome := by
  unfold NetCommunicator.processOpen
  rw [hread]
  split
  · rfl
  · rw [if_neg (by decide), if_neg (by simp)]
    rfl

theorem processSocketEvents_connected (hc : c.eState = .connecting)
    (hconnect : events.fdConnect = some 0) :
    c.processSocketEvents R env (some events) = (c.setState .ready).processOpen R env events := by
  simp only [NetCommunicator.processSocketEvents, hconnect, Option.isSome_some, ↓reduceIte]
  rw [if_neg (not_not.mpr hc), if_neg (by decide)]

end

namespace NetComManager
variable {receivers : ℕ → Receiver} {m : NetComManager} {i : ℕ} {c : NetCommunicator}

theorem signalled_event {r : WaitRound} {i : Fin wsaMaximumWaitEvents} (hr : r.dwResult = .event i)
    (hi : i.val < m.communicators.length) :
    m.signalled r = if i = 0 then none else some (i.val, r.enumeration.networkEvents) := by
  simp only [signalled, hr, evtIdx_event, Int.toNat_natCast]
  by_cases hzero : i = 0
  · rw [if_pos hzero, if_neg (by simp [hzero])]
  · have hpos : 0 < i.val := Nat.pos_of_ne_zero fun h => hzero (Fin.ext h)
    rw [if_neg hzero, if_pos ⟨by omega, by omega⟩]

theorem servesRound_of_handed {r : WaitRound} (hc : m.communicator i = some c)
    (handed : (m.tryConnect r.connect).signalled r = some (i, some r.enumeration.pending)) :
    m.ServesRound receivers r i c := by
  have hlen := lt_of_communicator hc
  have processed : m.processSocketEvents receivers r =
      ((c.tryConnect (r.connect i)).processSocketEvents (receivers i) r.env
        (some r.enumeration.pending)).map ((m.tryConnect r.connect).replace i) := by
    simp only [processSocketEvents, handed]
    rw [communicator_tryConnect, hc]
    rfl
  refine ⟨handed, processed, fun m' hm' j hj => ?_, fun hconnect hconnecting => ?_⟩
  · rw [processed] at hm'
    obtain ⟨c', -, rfl⟩ := Option.map_eq_some_iff.mp hm'
    rw [communicator_replace_ne hj, communicator_tryConnect]
  · rw [processed, processSocketEvents_connected hconnecting hconnect]
    constructor
    · intro m' hm'
      obtain ⟨c', hopen, rfl⟩ := Option.map_eq_some_iff.mp hm'
      refine ⟨c', communicator_replace_self ?_ c', processOpen_eState hopen⟩
      rwa [length_tryConnect]
    · intro hread
      rw [Option.isSome_map]
      exact processOpen_isSome hread

/-- A signalled communicator is served exactly if it is not the first and finds the pending events
at its second look. -/
theorem servesRound_iff {r : WaitRound} {i : Fin wsaMaximumWaitEvents}
    (hr : r.dwResult = .event i) (hc : m.communicator i = some c) :
    m.ServesRound receivers r i c ↔ i ≠ 0 ∧ r.enumeration.Repeats := by
  have hlen : i.val < (m.tryConnect r.connect).communicators.length := by
    rw [length_tryConnect]
    exact lt_of_communicator hc
  have hsignalled := signalled_event hr hlen
  rw [← Enumeration.networkEvents_eq_iff]
  by_cases hzero : i = 0
  · rw [if_pos hzero] at hsignalled
    refine iff_of_false (fun hserves => ?_) fun h => h.1 hzero
    have handed := hserves.handed
    rw [hsignalled] at handed
    cases handed
  · rw [if_neg hzero] at hsignalled
    constructor
    · intro hserves
      have handed := hserves.handed
      rw [hsignalled] at handed
      exact ⟨hzero, (Prod.mk.inj (Option.some.inj handed)).2⟩
    · rintro ⟨-, hevents⟩
      refine servesRound_of_handed hc ?_
      rw [hsignalled, hevents]

theorem serves_iff (e : ManagerEvent) : m.Serves receivers e ↔ m.Reaches e := by
  cases e with
  | processSocketEvents r =>
      constructor
      · exact fun hserves i c hr hc => (servesRound_iff hr hc).mp (hserves i c hr hc)
      · exact fun hreaches i c hr hc => (servesRound_iff hr hc).mpr (hreaches i c hr hc)
  | sendTo i choice req =>
      constructor
      · rintro hserves hcreated rfl
        obtain ⟨c, hc⟩ := Option.ne_none_iff_exists'.mp hcreated
        have hsent := hserves c hc
        rw [sendTo, if_pos (by simp)] at hsent
        cases hsent
      · intro hreaches c hc
        have hi : i ≠ 0 := hreaches (by rw [hc]; exact Option.some_ne_none c)
        have hlen := lt_of_communicator hc
        rw [sendTo, if_neg (by simp; omega), hc]
        rfl
  | arrive => exact iff_of_true trivial trivial

end NetComManager

open NetComManager

/-- In a run of the manager every signalled communicator is served and every message
passed on, exactly when none of this is about the first communicator and the second enumeration
of each round comes upon what was pending. -/
theorem communicators_served_iff (receivers : ℕ → Receiver) (m : NetComManager)
    (events : List ManagerEvent) :
    Along (step receivers) (Serves receivers) m events ↔
      Along (step receivers) Reaches m events := by
  have hsame : Serves receivers = Reaches := by
    funext m e
    exact propext (serves_iff e)
  rw [hsame]

def gameFlier : ℕ → Receiver
  | 0 => middlewareReceiver
  | _ => plssReceiver

def gameFlierManager : NetComManager := ⟨[some .unconnected, some .unconnected], by decide⟩

/-- Both connect; then the wait reports the FD_CONNECT of one of them, and nothing fails. -/
def connectRounds (i : Fin wsaMaximumWaitEvents) : List ManagerEvent :=
  [.processSocketEvents ⟨fun _ => ⟨true, true, true⟩, .timeout, quietEnv,
      ⟨true, true, .none, .none⟩⟩,
    .processSocketEvents ⟨fun _ => ⟨true, true, true⟩, .event i, quietEnv,
      ⟨true, true, ⟨some 0, none, none, none⟩, .none⟩⟩]

/-- The first communicator is not called and cannot be sent to; the second is called and finds
nothing. Both stay in `state_connecting`. -/
theorem first_communicator_unserved :
    (¬ ∀ (receivers : ℕ → Receiver) (m : NetComManager) (events : List ManagerEvent),
      Along (step receivers) (Serves receivers) m events) ∧
    (∀ choice req, gameFlierManager.sendTo 0 choice req = none) ∧
    ∀ i ∈ [0, 1], ((run (step gameFlier) gameFlierManager (connectRounds i)).bind
      fun m => m.communicator i.val).map NetCommunicator.eState = some .connecting := by
  refine ⟨fun h => ?_, fun _ _ => rfl, by decide⟩
  have hserves := ((h gameFlier gameFlierManager (connectRounds 0)).tail rfl).1 0 _ rfl rfl
  obtain ⟨c', hc', hready⟩ := (hserves.ready rfl rfl).1 _ rfl
  obtain rfl := Option.some.inj hc'
  exact absurd hready (by decide)

end TestCodes.AuthProvider
