import TestCodes.AuthProvider.SendQueue

/-! A second connection of an `AuthSock` against the first one of a new object,
under the same calls and the same answers of the socket. -/
namespace TestCodes.AuthProvider

/-- Nothing that the sending methods use differs. -/
structure SameConnection (s t : AuthSock) : Prop where
  hSocket : s.hSocket = t.hSocket
  sendBufferQueue : s.sendBufferQueue = t.sendBufferQueue
  iSendBufferOffset : s.iSendBufferOffset = t.iSendBufferOffset

namespace SameConnection
variable {s t : AuthSock}

theorem sendFromBuffer (h : SameConnection s t) (choice : SendChoice) (buffer : List UInt8)
    (size : Int) :
    (s.sendFromBuffer choice buffer size).1 = (t.sendFromBuffer choice buffer size).1 ∧
      SameConnection (s.sendFromBuffer choice buffer size).2
        (t.sendFromBuffer choice buffer size).2 := by
  unfold AuthSock.sendFromBuffer
  rw [h.hSocket]
  split
  · exact ⟨rfl, h⟩
  · exact ⟨rfl, h⟩
  · exact ⟨rfl, h⟩
  · split
    · exact ⟨rfl, h⟩
    · exact ⟨rfl, rfl, h.sendBufferQueue, h.iSendBufferOffset⟩

theorem flush (env : SendEnv) (queue : List SendBuffer) (round : ℕ) (h : SameConnection s t) :
    SameConnection (AuthSock.flush env queue round s).2 (AuthSock.flush env queue round t).2 := by
  induction queue generalizing round s t with
  | nil => exact ⟨h.hSocket, rfl, h.iSendBufferOffset⟩
  | cons front queue ih =>
      obtain ⟨block, len⟩ := front
      simp only [AuthSock.flush, h.iSendBufferOffset]
      obtain ⟨hsent, hsame⟩ := h.sendFromBuffer (env.choice round)
        (readMem block env.beyond t.iSendBufferOffset (len - t.iSendBufferOffset : Int).toNat)
        (len - t.iSendBufferOffset)
      rw [hsent, hsame.iSendBufferOffset]
      split
      · exact ⟨hsame.hSocket, rfl, rfl⟩
      · split
        · exact ⟨hsame.hSocket, rfl, rfl⟩
        · exact ih _ ⟨hsame.hSocket, rfl, rfl⟩

theorem pushRemainder (h : SameConnection s t) (d : SendData) (sent : Int) :
    SameConnection (s.pushRemainder d sent) (t.pushRemainder d sent) := by
  unfold AuthSock.pushRemainder
  rw [h.sendBufferQueue]
  exact ⟨h.hSocket, rfl, h.iSendBufferOffset⟩

theorem sendMsg (h : SameConnection s t) (choice : SendChoice) (d : SendData) :
    SameConnection (s.sendMsg choice d).2 (t.sendMsg choice d).2 := by
  obtain ⟨hsent, hsame⟩ := h.sendFromBuffer choice d.bytes d.newDataSize
  simp only [AuthSock.sendMsg, h.sendBufferQueue, hsent]
  split
  · exact h
  · split
    · split
      · exact hsame
      · split
        · exact hsame
        · exact hsame.pushRemainder d _
    · exact h.pushRemainder d 0

theorem step {l m : Link} (h : SameConnection l.sock m.sock) (c : Call) :
    SameConnection (l.step c).sock (m.step c).sock := by
  cases c with
  | sendMsg choice d => exact h.sendMsg choice d
  | sendFromBufferQueue env =>
      simp only [Link.step, AuthSock.sendFromBufferQueue, h.sendBufferQueue]
      exact h.flush env m.sock.sendBufferQueue 0

theorem accepted {l m : Link} (h : SameConnection l.sock m.sock) (calls : List Call) :
    (calls.foldl Link.step l).accepted = (calls.foldl Link.step m).accepted := by
  have hrun : SameConnection (calls.foldl Link.step l).sock (calls.foldl Link.step m).sock :=
    List.foldl_rel (r := fun (l m : Link) => SameConnection l.sock m.sock) h
      fun c _ _ _ hc => hc.step c
  rw [Link.accepted, hrun.hSocket, Link.accepted]

end SameConnection

theorem AuthSock.disconnect_hSocket (s : AuthSock) : s.disconnect.hSocket = none := by
  unfold disconnect
  split
  · assumption
  · rfl

theorem AuthSock.disconnect_offset (s : AuthSock) :
    s.disconnect.iSendBufferOffset = s.iSendBufferOffset := by
  unfold disconnect
  split <;> rfl

theorem sendFromBuffer_negative {s : AuthSock} (count : ℕ) (buffer : List UInt8) {size : Int}
    (h : size < 0) : s.sendFromBuffer (.accept count) buffer size = (socketError, s) := by
  unfold AuthSock.sendFromBuffer
  split
  · rfl
  · rfl
  · contradiction
  · rename_i heq
    obtain rfl := SendChoice.accept.inj heq
    rw [if_pos h]

/-- A one-byte message that has to wait, and the flush that follows. -/
def probe : List Call :=
  [.sendMsg .wouldBlock ⟨[1], by decide⟩, .sendFromBufferQueue ⟨fun _ => .accept 1, fun _ => 0⟩]

theorem probe_at_zero {s : AuthSock} (hs : s.hSocket = some Socket.fresh)
    (hq : s.sendBufferQueue = []) (hoff : s.iSendBufferOffset = 0) :
    (probe.foldl Link.step ⟨s, []⟩).accepted = [1] := by
  obtain ⟨hSocket, address, queue, off, pReadBuffer⟩ := s
  obtain rfl : hSocket = some Socket.fresh := hs
  obtain rfl : queue = [] := hq
  obtain rfl : off = 0 := hoff
  rfl

/-- Behind an offset the flush finds at most an empty rest of the message, and
passes over it, or a negative size, and fails. -/
theorem probe_behind {s : AuthSock} (hs : s.hSocket = some Socket.fresh)
    (hq : s.sendBufferQueue = []) (hoff : s.iSendBufferOffset ≠ 0) :
    (probe.foldl Link.step ⟨s, []⟩).accepted = [] := by
  obtain ⟨hSocket, address, queue, off, pReadBuffer⟩ := s
  obtain rfl : hSocket = some Socket.fresh := hs
  obtain rfl : queue = [] := hq
  obtain rfl | hlarge : off = 1 ∨ 1 < off := by
    have : off ≠ 0 := hoff
    omega
  · rfl
  · have hneg : ((1 : ℕ) : Int) - off < 0 := by omega
    show Link.accepted ⟨(AuthSock.flush _ [([1], 1)] 0
      ⟨some Socket.fresh, address, [([1], 1)], off, pReadBuffer⟩).2, _⟩ = []
    simp only [AuthSock.flush, sendFromBuffer_negative 1 _ hneg, ↓reduceIte]
    rfl

/-- After a disconnect and a connect the socket takes what it takes from a new object,
whatever the calls, exactly when no message was sent in part at the disconnect. -/
theorem reconnected_as_new {s s' f' : AuthSock} (life : Life s) (env env' : ConnectEnv)
    (reconnect : s.disconnect.connectToServer env = (true, s')) (address : SockAddr)
    (pReadBuffer : Option SMsgBuffer)
    (connect : (AuthSock.new address pReadBuffer).connectToServer env' = (true, f')) :
    (∀ calls : List Call, (calls.foldl Link.step ⟨s', []⟩).accepted =
      (calls.foldl Link.step ⟨f', []⟩).accepted) ↔ s.iSendBufferOffset = 0 := by
  obtain ⟨hs, hq⟩ := life.disconnect.connected s.disconnect_hSocket reconnect
  obtain ⟨hf, hfq⟩ := (Life.new address pReadBuffer).connected rfl connect
  have hoff : s'.iSendBufferOffset = s.iSendBufferOffset := by
    rw [connectToServer_true reconnect, s.disconnect_offset]
  have hfoff : f'.iSendBufferOffset = 0 := by
    rw [connectToServer_true connect]
    rfl
  constructor
  · intro same
    by_contra hne
    have h := same probe
    rw [probe_behind hs hq (hoff ▸ hne), probe_at_zero hf hfq hfoff] at h
    cases h
  · intro hzero calls
    have same : SameConnection s' f' :=
      ⟨hs.trans hf.symm, hq.trans hfq.symm, (hoff.trans hzero).trans hfoff.symm⟩
    exact same.accepted (l := ⟨s', []⟩) (m := ⟨f', []⟩) calls

def waitingSock : AuthSock :=
  (((AuthSock.new ⟨1, 1⟩ none).connectToServer ⟨true, true, true⟩).2.sendMsg .wouldBlock
    ⟨[1, 2], by decide⟩).2

theorem life_waitingSock : Life waitingSock :=
  .sendMsg _ _ (.connectToServer _ (.new _ _) rfl)

/-- The connection is dropped while the whole message waits. -/
theorem reconnected_as_new_waiting :
    ∃ s' f' : AuthSock, waitingSock.disconnect.connectToServer ⟨true, true, true⟩ = (true, s') ∧
      (AuthSock.new ⟨1, 1⟩ none).connectToServer ⟨true, true, true⟩ = (true, f') ∧
      ∀ calls : List Call, (calls.foldl Link.step ⟨s', []⟩).accepted =
        (calls.foldl Link.step ⟨f', []⟩).accepted :=
  ⟨_, _, rfl, rfl, (reconnected_as_new life_waitingSock ⟨true, true, true⟩ ⟨true, true, true⟩ rfl
    ⟨1, 1⟩ none rfl).mpr rfl⟩

/-- The connection is dropped after the first byte: the next one loses a message. -/
theorem reconnected_differs :
    ¬ ∀ (s s' f' : AuthSock) (env : ConnectEnv), Life s →
      s.disconnect.connectToServer env = (true, s') →
      (AuthSock.new s.address none).connectToServer env = (true, f') →
      ∀ calls : List Call, (calls.foldl Link.step ⟨s', []⟩).accepted =
        (calls.foldl Link.step ⟨f', []⟩).accepted := by
  intro h
  exact absurd (h _ _ _ ⟨true, true, true⟩ (.sendFromBufferQueue ⟨fun _ => .accept 1, fun _ => 0⟩
    life_waitingSock) rfl rfl probe) (by decide)

end TestCodes.AuthProvider
