import TestCodes.AuthProvider.ReceiveLoop
import TestCodes.AuthProvider.Reconnect

/-! The connection of a communicator: its state against the socket of its
`AuthSock`, over every order of connects, network events and disconnects. -/
namespace TestCodes.AuthProvider
open Machine

/-- `WSANETWORKEVENTS`: for each event that is set, its error code. -/
structure NetworkEvents where
  fdConnect : Option Int
  fdClose : Option Int
  fdRead : Option Int
  fdWrite : Option Int
  deriving DecidableEq

def NetworkEvents.none : NetworkEvents := ⟨.none, .none, .none, .none⟩

/-- An event that occurs once more has its newer error code. -/
def NetworkEvents.add (older newer : NetworkEvents) : NetworkEvents where
  fdConnect := newer.fdConnect <|> older.fdConnect
  fdClose := newer.fdClose <|> older.fdClose
  fdRead := newer.fdRead <|> older.fdRead
  fdWrite := newer.fdWrite <|> older.fdWrite

/-- `WSAEnumNetworkEvents`: what it hands out, and what stays recorded for the socket. -/
def wsaEnumNetworkEvents (succeeds : Bool) (record : NetworkEvents) :
    Option NetworkEvents × NetworkEvents :=
  if succeeds then (some record, .none) else (none, record)

/-- The condition of `ASSERTV_DO` is evaluated twice, and with it `WSAEnumNetworkEvents`: whether
each call succeeds, what is pending at the first, and what occurs before the second. -/
structure Enumeration where
  first : Bool
  second : Bool
  pending : NetworkEvents
  since : NetworkEvents

/-- What the second call leaves in `networkEvents`; none when it fails. -/
def Enumeration.networkEvents (e : Enumeration) : Option NetworkEvents :=
  let (_, record) := wsaEnumNetworkEvents e.first e.pending
  (wsaEnumNetworkEvents e.second (record.add e.since)).1

/-- The event is set, with an error code. -/
def failed (event : Option Int) : Bool := event.any (· ≠ 0)

def NetCommunicator.setState (c : NetCommunicator) (aState : State) : NetCommunicator :=
  { c with eState := aState }

/-- What the calls made by one `ProcessSocketEvents` come to. -/
structure EventEnv where
  faults : ℕ → RecvFaults
  fuel : ℕ
  send : SendEnv

/-- FD_WRITE, the last of the events that are looked at. -/
def NetCommunicator.processWrite (env : EventEnv) (fdWrite : Option Int) (c : NetCommunicator) :
    NetCommunicator :=
  if failed fdWrite then c.disconnectFromServer
  else if fdWrite.isSome ∧ c.eState = .ready then
    { c with sockInterface := (c.sockInterface.sendFromBufferQueue env.send).2 }
  else c

/-- FD_CLOSE, FD_READ and FD_WRITE. Without a result `RecvAndProcMsg` is still running. -/
def NetCommunicator.processOpen (R : Receiver) (env : EventEnv) (events : NetworkEvents)
    (c : NetCommunicator) : Option NetCommunicator :=
  if events.fdClose.isSome then some c.disconnectFromServer
  else if failed events.fdRead then some c.disconnectFromServer
  else if events.fdRead.isSome ∧ c.eState = .ready then
    (recvAndProcMsg R env.faults env.fuel c).2.map fun c => c.processWrite env events.fdWrite
  else some (c.processWrite env events.fdWrite)

/-- `networkEvents` is what the second of the two `WSAEnumNetworkEvents` calls has left there, and
none when that call fails. -/
def NetCommunicator.processSocketEvents (R : Receiver) (env : EventEnv)
    (networkEvents : Option NetworkEvents) (c : NetCommunicator) : Option NetCommunicator :=
  match networkEvents with
  | none => some c.disconnectFromServer
  | some events =>
      if events.fdConnect.isSome then
        if c.eState ≠ .connecting then some c
        else if failed events.fdConnect then some c.disconnectFromServer
        else (c.setState .ready).processOpen R env events
      else c.processOpen R env events

def NetCommunicator.tryConnect (c : NetCommunicator) (env : ConnectEnv) : NetCommunicator :=
  if c.eState = .notConnected then
    let (connected, sock) := c.sockInterface.connectToServer env
    let c := { c with sockInterface := sock }
    if connected then c.setState .connecting else c.disconnectFromServer
  else c

/-- What happens to a communicator. Messages are sent through it, and bytes arrive
on its socket, at any time. -/
inductive CommEvent where
  | tryConnect (env : ConnectEnv)
  | socketEvents (env : EventEnv) (networkEvents : Option NetworkEvents)
  | disconnectFromServer
  | sendMsg (choice : SendChoice) (d : SendData)
  | arrive (chunk : List UInt8)

def NetCommunicator.step (R : Receiver) (c : NetCommunicator) :
    CommEvent → Option NetCommunicator
  | .tryConnect env => some (c.tryConnect env)
  | .socketEvents env networkEvents => c.processSocketEvents R env networkEvents
  | .disconnectFromServer => some c.disconnectFromServer
  | .sendMsg choice d => some { c with sockInterface := (c.sockInterface.sendMsg choice d).2 }
  | .arrive chunk => some (c.arrive chunk)

structure NetCommunicator.FionreadFails (R : Receiver) (f : RecvFaults) (c : NetCommunicator) :
    Prop where
  ready : c.eState = .ready
  buffer : c.sockInterface.pReadBuffer.isSome
  socket : c.sockInterface.hSocket.isSome
  peeked : f.peek = false
  header : R.header ≤ c.fionread
  fails : f.ioctl = true

/-- A round of the receive loop gets to a FIONREAD that fails. -/
inductive NetCommunicator.LoopFails (R : Receiver) (faults : ℕ → RecvFaults) :
    ℕ → NetCommunicator → Prop
  | here {round : ℕ} {c : NetCommunicator} : c.FionreadFails R (faults round) →
      LoopFails R faults round c
  | later {round : ℕ} {c : NetCommunicator} : (recvNextMsg R (faults round) c).ok = true →
      LoopFails R faults (round + 1) (recvNextMsg R (faults round) c).comm →
      LoopFails R faults round c

/-- FD_CLOSE, FD_READ and FD_WRITE lead to a disconnect. -/
inductive NetCommunicator.OpenFails (R : Receiver) (env : EventEnv) (events : NetworkEvents)
    (c : NetCommunicator) : Prop
  | close : events.fdClose.isSome → OpenFails R env events c
  | read : failed events.fdRead → OpenFails R env events c
  | loop : events.fdRead.isSome → c.eState = .ready → c.LoopFails R env.faults 0 →
      OpenFails R env events c
  | write : failed events.fdWrite → OpenFails R env events c

/-- The event comes to `DisconnectFromServer`; a `TryConnect` only gives back the
socket that it has opened itself. -/
def NetCommunicator.Disconnects (R : Receiver) (c : NetCommunicator) : CommEvent → Prop
  | .socketEvents _ none | .disconnectFromServer => True
  | .socketEvents env (some events) =>
      match events.fdConnect with
      | none => c.OpenFails R env events
      | some code => c.eState = .connecting ∧
          (code ≠ 0 ∨ (c.setState .ready).OpenFails R env events)
  | _ => False

def NetCommunicator.Drops (R : Receiver) (c : NetCommunicator) (e : CommEvent) : Prop :=
  c.sockInterface.hSocket.isSome ∧ c.Disconnects R e

/-- State and socket of a communicator that is or is not connected. -/
structure Linked (c : NetCommunicator) (connected : Bool) : Prop where
  state : c.eState = .connecting ∨ c.eState = .ready
  socket : c.sockInterface.hSocket.isSome = connected

section
variable {R : Receiver} {f : RecvFaults} {faults : ℕ → RecvFaults} {c c' : NetCommunicator}
  {connected : Bool}

theorem recvToBuffer_isSome (s : AuthSock) (fault : Bool) (n : ℕ) (peek : Bool) :
    (s.recvToBuffer fault n peek).2.hSocket.isSome = s.hSocket.isSome := by
  unfold AuthSock.recvToBuffer
  split
  · rfl
  · rfl
  · rename_i hk
    split
    · rfl
    · rw [hk]
      rfl

theorem readFrame_comm (R : Receiver) (f : RecvFaults) (avail : ℕ) (header : List UInt8)
    (c : NetCommunicator) : (readFrame R f avail header c).comm.eState = c.eState ∧
      (readFrame R f avail header c).comm.sockInterface.hSocket.isSome =
        c.sockInterface.hSocket.isSome := by
  unfold readFrame
  split
  · exact ⟨rfl, rfl⟩
  · split
    · exact ⟨rfl, rfl⟩
    · exact ⟨rfl, recvToBuffer_isSome ..⟩

theorem readFrame_invalid (hs : c.sockInterface.hSocket = none) (avail : ℕ)
    (header : List UInt8) : (readFrame R f avail header c).ok = false := by
  unfold readFrame
  split
  · rfl
  · split
    · rfl
    · simp only [recv_invalid hs, ne_eq, not_true_eq_false, decide_false]

/-- One `RecvNextMsg` loses the socket exactly when its FIONREAD fails, and then
returns false. -/
structure Receives (R : Receiver) (f : RecvFaults) (c : NetCommunicator) (r : Received) :
    Prop where
  state : r.comm.eState = c.eState
  lost : c.FionreadFails R f → r.ok = false ∧ r.comm.sockInterface.hSocket.isSome = false
  kept : ¬ c.FionreadFails R f →
    r.comm.sockInterface.hSocket.isSome = c.sockInterface.hSocket.isSome

theorem Receives.unchanged {r : Received} (h : r.comm = c) (hf : ¬ c.FionreadFails R f) :
    Receives R f c r :=
  ⟨by rw [h], fun hfails => absurd hfails hf, fun _ => by rw [h]⟩

theorem Live.receives {u : List UInt8} {b : SMsgBuffer} (h : Live c u b) :
    Receives R f c (recvNextMsg R f c) := by
  have hsome : c.sockInterface.hSocket.isSome = true := by
    obtain ⟨k, hk, -⟩ := h.socket
    rw [hk]
    rfl
  cases hpeek : f.peek with
  | true =>
      rw [recvNextMsg_peek_fault R h hpeek]
      refine .unchanged rfl fun hfails => ?_
      have hpeeked := hfails.peeked
      rw [hpeek] at hpeeked
      cases hpeeked
  | false =>
      obtain ⟨c', hl, -, he⟩ := recvNextMsg_header R h hpeek
      have hsome' : c'.sockInterface.hSocket.isSome = true := by
        obtain ⟨k, hk, -⟩ := hl.socket
        rw [hk]
        rfl
      rw [he]
      by_cases hlen : u.length < R.header
      · rw [if_pos hlen]
        refine ⟨hl.ready.trans h.ready.symm, fun hfails => ?_, fun _ => hsome'.trans hsome.symm⟩
        have hheader := hfails.header
        rw [h.fionread] at hheader
        omega
      · rw [if_neg hlen]
        cases hioctl : f.ioctl with
        | true =>
            have hclosed := hl.disconnect
            obtain ⟨hstate, hvalid⟩ := readFrame_comm R f R.header (c'.readBuffer.take R.header)
              c'.disconnectFromServer
            rw [hclosed.socket] at hvalid
            refine ⟨hstate.trans (hl.ready.trans h.ready.symm), fun _ => ⟨?_, hvalid⟩, ?_⟩
            · exact readFrame_invalid hclosed.socket ..
            · intro hfails
              refine absurd ⟨h.ready, ?_, hsome, hpeek, ?_, hioctl⟩ hfails
              · rw [h.buffer]
                rfl
              · rw [h.fionread]
                omega
        | false =>
            obtain ⟨hstate, hvalid⟩ := readFrame_comm R f u.length (c'.readBuffer.take R.header) c'
            refine ⟨hstate.trans (hl.ready.trans h.ready.symm), fun hfails => ?_, fun _ => ?_⟩
            · have hfail := hfails.fails
              rw [hioctl] at hfail
              cases hfail
            · exact hvalid.trans (hsome'.trans hsome.symm)

theorem recvNextMsg_receives (R : Receiver) (f : RecvFaults) (c : NetCommunicator) :
    Receives R f c (recvNextMsg R f c) := by
  by_cases hready : c.eState = .ready
  · cases hb : c.sockInterface.pReadBuffer with
    | none =>
        refine .unchanged ?_ fun hfails => ?_
        · rw [recvNextMsg, if_neg (by simp [hready]), if_pos (by simp [hb])]
        · have hbuffer := hfails.buffer
          rw [hb] at hbuffer
          cases hbuffer
    | some b =>
        cases hk : c.sockInterface.hSocket with
        | none =>
            refine .unchanged ?_ fun hfails => ?_
            · rw [recvNextMsg_closed R f ⟨hready, by simp [hb], hk⟩]
            · have hsocket := hfails.socket
              rw [hk] at hsocket
              cases hsocket
        | some k => exact Live.receives ⟨hready, hb, k, hk, rfl⟩
  · refine .unchanged ?_ fun hfails => hready hfails.ready
    rw [recvNextMsg, if_pos hready]

theorem recvLoop_link {fuel round : ℕ} (h : (recvLoop R faults fuel round c).2 = some c') :
    c'.eState = c.eState ∧
      (c.LoopFails R faults round ∧ c'.sockInterface.hSocket.isSome = false ∨
        ¬ c.LoopFails R faults round ∧
          c'.sockInterface.hSocket.isSome = c.sockInterface.hSocket.isSome) := by
  induction fuel generalizing round c with
  | zero => cases h
  | succ fuel ih =>
      have hr := recvNextMsg_receives R (faults round) c
      rw [recvLoop] at h
      cases hok : (recvNextMsg R (faults round) c).ok with
      | false =>
          simp only [hok, Bool.not_false, ↓reduceIte, Option.some.injEq] at h
          subst h
          refine ⟨hr.state, ?_⟩
          by_cases hfails : c.FionreadFails R (faults round)
          · exact .inl ⟨.here hfails, (hr.lost hfails).2⟩
          · refine .inr ⟨fun hloop => ?_, hr.kept hfails⟩
            cases hloop with
            | here hhere => exact hfails hhere
            | later htrue =>
                rw [hok] at htrue
                cases htrue
      | true =>
          simp only [hok, Bool.not_true, Bool.false_eq_true, ↓reduceIte] at h
          have hfails : ¬ c.FionreadFails R (faults round) := by
            intro hfails
            rw [(hr.lost hfails).1] at hok
            cases hok
          obtain ⟨hstate, hend⟩ := ih h
          refine ⟨hstate.trans hr.state, hend.imp ?_ ?_⟩
          · rintro ⟨hloop, hlost⟩
            exact ⟨.later hok hloop, hlost⟩
          · rintro ⟨hloop, hkept⟩
            refine ⟨fun hany => ?_, hkept.trans (hr.kept hfails)⟩
            cases hany with
            | here hhere => exact hfails hhere
            | later _ hlater => exact hloop hlater

theorem NetCommunicator.LoopFails.buffer {round : ℕ} (h : c.LoopFails R faults round) :
    c.sockInterface.pReadBuffer.isSome = true := by
  cases h with
  | here hfails => exact hfails.buffer
  | later hok =>
      cases hb : c.sockInterface.pReadBuffer with
      | none =>
          rw [recvNextMsg] at hok
          by_cases hready : c.eState = .ready <;> simp [hready, hb] at hok
      | some b => rfl

theorem recvAndProcMsg_link {fuel : ℕ} (h : (recvAndProcMsg R faults fuel c).2 = some c') :
    c'.eState = c.eState ∧
      (c.LoopFails R faults 0 ∧ c'.sockInterface.hSocket.isSome = false ∨
        ¬ c.LoopFails R faults 0 ∧
          c'.sockInterface.hSocket.isSome = c.sockInterface.hSocket.isSome) := by
  unfold recvAndProcMsg at h
  split at h
  · rename_i hb
    obtain rfl := Option.some.inj h
    refine ⟨rfl, .inr ⟨fun hloop => ?_, rfl⟩⟩
    have hbuffer := hloop.buffer
    rw [Option.isNone_iff_eq_none.mp hb] at hbuffer
    cases hbuffer
  · exact recvLoop_link h

theorem Linked.disconnectFromServer (h : Linked c connected) :
    Linked c.disconnectFromServer false where
  state := h.state
  socket := by
    show c.sockInterface.disconnect.hSocket.isSome = false
    rw [c.sockInterface.disconnect_hSocket]
    rfl

/-- The socket is lost by a write event that failed, or it was lost before. -/
theorem Linked.processWrite_cases (h : Linked c connected) (env : EventEnv)
    (fdWrite : Option Int) :
    failed fdWrite = true ∧ Linked (c.processWrite env fdWrite) false ∨
      failed fdWrite = false ∧ Linked (c.processWrite env fdWrite) connected := by
  unfold NetCommunicator.processWrite
  cases hfail : failed fdWrite with
  | true => exact .inl ⟨rfl, h.disconnectFromServer⟩
  | false =>
      refine .inr ⟨rfl, ?_⟩
      rw [if_neg (by simp)]
      split
      · exact ⟨h.state, (flush_isSome ..).trans h.socket⟩
      · exact h

theorem Linked.processOpen (h : Linked c connected) {env : EventEnv} {events : NetworkEvents}
    (he : c.processOpen R env events = some c') :
    c.OpenFails R env events ∧ Linked c' false ∨
      ¬ c.OpenFails R env events ∧ Linked c' connected := by
  unfold NetCommunicator.processOpen at he
  by_cases hclose : events.fdClose.isSome
  · rw [if_pos hclose] at he
    exact .inl ⟨.close hclose, Option.some.inj he ▸ h.disconnectFromServer⟩
  rw [if_neg hclose] at he
  by_cases hread : failed events.fdRead
  · rw [if_pos hread] at he
    exact .inl ⟨.read hread, Option.some.inj he ▸ h.disconnectFromServer⟩
  rw [if_neg hread] at he
  by_cases hloops : events.fdRead.isSome ∧ c.eState = .ready
  · rw [if_pos hloops] at he
    obtain ⟨c₁, hc₁, rfl⟩ := Option.map_eq_some_iff.mp he
    rcases recvAndProcMsg_link hc₁ with ⟨hstate, ⟨hloop, hlost⟩ | ⟨hloop, hkept⟩⟩
    · have h₁ : Linked c₁ false := ⟨hstate ▸ h.state, hlost⟩
      refine .inl ⟨.loop hloops.1 hloops.2 hloop, ?_⟩
      rcases h₁.processWrite_cases env events.fdWrite with ⟨-, h₂⟩ | ⟨-, h₂⟩ <;> exact h₂
    · have h₁ : Linked c₁ connected := ⟨hstate ▸ h.state, hkept.trans h.socket⟩
      rcases h₁.processWrite_cases env events.fdWrite with ⟨hwrite, h₂⟩ | ⟨hwrite, h₂⟩
      · exact .inl ⟨.write hwrite, h₂⟩
      · refine .inr ⟨?_, h₂⟩
        rintro (hf | hf | ⟨-, -, hf⟩ | hf)
        · exact hclose hf
        · exact hread hf
        · exact hloop hf
        · rw [hwrite] at hf
          cases hf
  · rw [if_neg hloops] at he
    obtain rfl := Option.some.inj he
    rcases h.processWrite_cases env events.fdWrite with ⟨hwrite, h₂⟩ | ⟨hwrite, h₂⟩
    · exact .inl ⟨.write hwrite, h₂⟩
    · refine .inr ⟨?_, h₂⟩
      rintro (hf | hf | ⟨hset, hready, -⟩ | hf)
      · exact hclose hf
      · exact hread hf
      · exact hloops ⟨hset, hready⟩
      · rw [hwrite] at hf
        cases hf

theorem Linked.setReady (h : Linked c connected) : Linked (c.setState .ready) connected :=
  ⟨.inr rfl, h.socket⟩

theorem Linked.sendMsg (h : Linked c connected) (choice : SendChoice) (d : SendData) :
    Linked { c with sockInterface := (c.sockInterface.sendMsg choice d).2 } connected :=
  ⟨h.state, (sendMsg_isSome ..).trans h.socket⟩

theorem Linked.arrive (h : Linked c connected) (chunk : List UInt8) :
    Linked (c.arrive chunk) connected :=
  ⟨h.state, Option.isSome_map.trans h.socket⟩

/-- Once in one of the two states, `TryConnect` does nothing. -/
theorem Linked.tryConnect (h : Linked c connected) (env : ConnectEnv) : c.tryConnect env = c := by
  rw [NetCommunicator.tryConnect, if_neg]
  intro hstate
  have hlinked := h.state
  rw [hstate] at hlinked
  rcases hlinked with hlinked | hlinked <;> cases hlinked

theorem Linked.step (h : Linked c connected) {e : CommEvent} (he : c.step R e = some c') :
    c.Disconnects R e ∧ Linked c' false ∨ ¬ c.Disconnects R e ∧ Linked c' connected := by
  cases e with
  | tryConnect env =>
      obtain rfl := Option.some.inj he
      exact .inr ⟨id, by rwa [h.tryConnect]⟩
  | socketEvents env networkEvents =>
      cases networkEvents with
      | none => exact .inl ⟨trivial, Option.some.inj he ▸ h.disconnectFromServer⟩
      | some events =>
          change c.processSocketEvents R env (some events) = some c' at he
          unfold NetCommunicator.processSocketEvents at he
          simp only [NetCommunicator.Disconnects]
          cases hconnect : events.fdConnect with
          | none =>
              simp only [hconnect, Option.isSome_none, Bool.false_eq_true, ↓reduceIte] at he
              exact h.processOpen he
          | some code =>
              simp only [hconnect, Option.isSome_some, ↓reduceIte, failed, Option.any_some,
                decide_eq_true_eq] at he
              by_cases hstate : c.eState = .connecting
              · rw [if_neg (not_not.mpr hstate)] at he
                by_cases hcode : code = 0
                · rw [if_neg (not_not.mpr hcode)] at he
                  rcases h.setReady.processOpen he with ⟨hopen, hend⟩ | ⟨hopen, hend⟩
                  · exact .inl ⟨⟨hstate, .inr hopen⟩, hend⟩
                  · refine .inr ⟨?_, hend⟩
                    rintro ⟨-, hfails | hfails⟩
                    · exact hfails hcode
                    · exact hopen hfails
                · rw [if_pos hcode] at he
                  exact .inl ⟨⟨hstate, .inl hcode⟩, Option.some.inj he ▸ h.disconnectFromServer⟩
              · rw [if_pos hstate] at he
                exact .inr ⟨fun hfails => hstate hfails.1, Option.some.inj he ▸ h⟩
  | disconnectFromServer => exact .inl ⟨trivial, Option.some.inj he ▸ h.disconnectFromServer⟩
  | sendMsg choice d => exact .inr ⟨id, Option.some.inj he ▸ h.sendMsg choice d⟩
  | arrive chunk => exact .inr ⟨id, Option.some.inj he ▸ h.arrive chunk⟩

structure Unconnected (c : NetCommunicator) : Prop where
  state : c.eState = .notConnected
  socket : c.sockInterface.hSocket = none

theorem Unconnected.disconnectFromServer (h : Unconnected c) : c.disconnectFromServer = c := by
  simp only [NetCommunicator.disconnectFromServer, AuthSock.disconnect, h.socket]

theorem Unconnected.processOpen (h : Unconnected c) (env : EventEnv) (events : NetworkEvents) :
    c.processOpen R env events = some c := by
  have hstate : c.eState ≠ .ready := by
    rw [h.state]
    decide
  simp [NetCommunicator.processOpen, NetCommunicator.processWrite, h.disconnectFromServer, hstate]

theorem Unconnected.tryConnect (h : Unconnected c) (env : ConnectEnv) :
    Unconnected (c.tryConnect env) ∨ Linked (c.tryConnect env) true := by
  rw [NetCommunicator.tryConnect, if_pos h.state]
  cases hconnect : c.sockInterface.connectToServer env with
  | mk connected sock =>
      cases connected with
      | false => exact .inl ⟨h.state, sock.disconnect_hSocket⟩
      | true =>
          refine .inr ⟨.inl rfl, ?_⟩
          show sock.hSocket.isSome = true
          rw [connectToServer_true hconnect]
          rfl

theorem Unconnected.step (h : Unconnected c) {e : CommEvent} (he : c.step R e = some c') :
    Unconnected c' ∨ Linked c' true := by
  cases e with
  | tryConnect env => exact Option.some.inj he ▸ h.tryConnect env
  | socketEvents env networkEvents =>
      left
      change c.processSocketEvents R env networkEvents = some c' at he
      have hstate : c.eState ≠ .connecting := by
        rw [h.state]
        decide
      cases networkEvents with
      | none =>
          obtain rfl := Option.some.inj he
          rwa [h.disconnectFromServer]
      | some events =>
          simp only [NetCommunicator.processSocketEvents, hstate, h.processOpen, ne_eq,
            not_false_eq_true, ↓reduceIte, ite_self, Option.some.injEq] at he
          exact he ▸ h
  | disconnectFromServer =>
      obtain rfl := Option.some.inj he
      exact .inl (by rwa [h.disconnectFromServer])
  | sendMsg choice d =>
      obtain rfl := Option.some.inj he
      refine .inl ⟨h.state, ?_⟩
      rw [← Option.not_isSome_iff_eq_none, sendMsg_isSome, h.socket]
      decide
  | arrive chunk =>
      obtain rfl := Option.some.inj he
      refine .inl ⟨h.state, ?_⟩
      simp only [NetCommunicator.arrive, h.socket, Option.map_none]

end

/-- State and socket agree, and without a socket a `TryConnect` makes a connection
whenever `ConnectToServer` does. -/
structure NetCommunicator.Agrees (c : NetCommunicator) : Prop where
  link : c.eState = .connecting ∨ c.eState = .ready ↔ c.sockInterface.hSocket.isSome = true
  retries : c.sockInterface.hSocket = none → ∀ env sock,
    c.sockInterface.connectToServer env = (true, sock) →
      c.tryConnect env = { c with sockInterface := sock, eState := .connecting }

theorem Unconnected.agrees {c : NetCommunicator} (h : Unconnected c) : c.Agrees where
  link := by
    rw [h.state, h.socket]
    decide
  retries := by
    intro _ env sock hconnect
    simp only [NetCommunicator.tryConnect, h.state, ↓reduceIte, hconnect,
      NetCommunicator.setState]

theorem Linked.agrees {c : NetCommunicator} (h : Linked c true) : c.Agrees where
  link := iff_of_true h.state h.socket
  retries := by
    intro hnone
    have hsocket := h.socket
    rw [hnone] at hsocket
    cases hsocket

theorem Linked.not_agrees {c : NetCommunicator} (h : Linked c false) : ¬ c.Agrees := by
  intro hagrees
  have hsocket := hagrees.link.mp h.state
  rw [h.socket] at hsocket
  cases hsocket

/-- A run from no connection stays in order up to the first drop, and is lost from there on. -/
theorem Unconnected.run {R : Receiver} {c c' : NetCommunicator} (h : Unconnected c)
    {events : List CommEvent} (hrun : run (NetCommunicator.step R) c events = some c') :
    Along (NetCommunicator.step R) (fun c e => ¬ c.Drops R e) c events ∧
        (Unconnected c' ∨ Linked c' true) ∨
      ¬ Along (NetCommunicator.step R) (fun c e => ¬ c.Drops R e) c events ∧ Linked c' false := by
  refine run_breaks (fun c => Unconnected c ∨ Linked c true) (fun c => Linked c false) ?_ ?_ ?_
    (.inl h) hrun
  · intro c e c' hgood hok he
    rcases hgood with hidle | hlinked
    · exact hidle.step he
    · rcases hlinked.step he with ⟨hdisconnects, -⟩ | ⟨-, hend⟩
      · exact absurd ⟨hlinked.socket, hdisconnects⟩ hok
      · exact .inr hend
  · intro c e c' hgood hok he
    obtain ⟨hsocket, hdisconnects⟩ := not_not.mp hok
    rcases hgood with hidle | hlinked
    · rw [hidle.socket] at hsocket
      cases hsocket
    · rcases hlinked.step he with ⟨-, hend⟩ | ⟨hnot, -⟩
      · exact hend
      · exact absurd hdisconnects hnot
  · intro c e c' hlost he
    rcases hlost.step he with ⟨-, hend⟩ | ⟨-, hend⟩ <;> exact hend

/-- After a run of any events the state agrees with the socket exactly when none of
them disconnected a valid socket. -/
theorem state_agrees_iff (R : Receiver) (c c' : NetCommunicator) (state : c.eState = .notConnected)
    (socket : c.sockInterface.hSocket = none) (events : List CommEvent)
    (hrun : run (NetCommunicator.step R) c events = some c') :
    c'.Agrees ↔ Along (NetCommunicator.step R) (fun c e => ¬ c.Drops R e) c events := by
  rcases Unconnected.run ⟨state, socket⟩ hrun with ⟨halong, hend⟩ | ⟨halong, hend⟩
  · exact iff_of_true (hend.elim Unconnected.agrees Linked.agrees) halong
  · exact iff_of_false hend.not_agrees halong

def NetCommunicator.unconnected : NetCommunicator :=
  ⟨AuthSock.new ⟨1, 1⟩ (some .zeroed), true, .notConnected⟩

def quietEnv : EventEnv := ⟨fun _ => .none, 1, ⟨fun _ => .wouldBlock, fun _ => 0⟩⟩

/-- A connect that fails, one that works, and its FD_CONNECT with FD_WRITE. -/
def connecting : List CommEvent :=
  [.tryConnect ⟨true, true, false⟩, .tryConnect ⟨true, true, true⟩,
    .socketEvents quietEnv (some ⟨some 0, none, none, some 0⟩)]

theorem state_agrees_connecting :
    ∃ c, run (NetCommunicator.step plssReceiver) .unconnected connecting = some c ∧
      c.eState = .ready ∧ c.Agrees := by
  refine ⟨_, rfl, rfl, ?_⟩
  apply (state_agrees_iff plssReceiver .unconnected _ rfl rfl connecting rfl).mpr
  refine ⟨fun hdrops => hdrops.2, fun hdrops => hdrops.2, fun hdrops => ?_, trivial⟩
  rcases hdrops with ⟨-, -, hcode | hopen⟩
  · exact hcode rfl
  · rcases hopen with hset | hset | ⟨hset, -, -⟩ | hset <;> exact absurd hset (by decide)

/-- After a failed enumeration no `TryConnect` makes another connection. -/
theorem closed_connection_disagrees :
    ¬ ∀ (events : List CommEvent) (c : NetCommunicator),
      run (NetCommunicator.step plssReceiver) .unconnected events = some c → c.Agrees := by
  intro h
  have hagrees := h [.tryConnect ⟨true, true, true⟩, .socketEvents quietEnv none,
    .tryConnect ⟨true, true, true⟩] _ rfl
  exact absurd (hagrees.link.mp (.inl rfl)) (by decide)

end TestCodes.AuthProvider
