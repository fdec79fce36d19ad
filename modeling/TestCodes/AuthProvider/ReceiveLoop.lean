import TestCodes.AuthProvider.NetCommunicator

/-! What one `RecvNextMsg` can do on a ready communicator: stop, or consume
exactly the frame at the front of the unread bytes. Every later fact about the
receive loop is derived from this case analysis. -/
namespace TestCodes.AuthProvider

/-- A ready communicator with a valid buffer and `u` unread on its socket. -/
structure Live (c : NetCommunicator) (u : List UInt8) (b : SMsgBuffer) : Prop where
  ready : c.eState = .ready
  buffer : c.sockInterface.pReadBuffer = some b
  socket : ∃ k, c.sockInterface.hSocket = some k ∧ k.unread = u

def SMsgBuffer.zeroed : SMsgBuffer := List.Vector.replicate sizeofSMsgBuffer 0

def NetCommunicator.readyWith (unread : List UInt8) : NetCommunicator where
  sockInterface := { AuthSock.new ⟨1, 1⟩ (some .zeroed) with hSocket := some ⟨[], unread⟩ }
  pAuthProvider := true
  eState := .ready

theorem Live.readyWith (u : List UInt8) : Live (.readyWith u) u .zeroed :=
  ⟨rfl, rfl, _, rfl, rfl⟩

structure Closed (c : NetCommunicator) : Prop where
  ready : c.eState = .ready
  buffer : c.sockInterface.pReadBuffer ≠ none
  socket : c.sockInterface.hSocket = none

theorem Live.recv {c : NetCommunicator} {u : List UInt8} {b : SMsgBuffer} (h : Live c u b)
    (n : ℕ) (peek : Bool) :
    (c.sockInterface.recvToBuffer false n peek).1 = ((u.take n).length : Int) ∧
    Live { c with sockInterface := (c.sockInterface.recvToBuffer false n peek).2 }
      (if peek then u else u.drop n) (b.store (u.take n)) := by
  obtain ⟨k, hk, rfl⟩ := h.socket
  cases peek <;>
    exact ⟨by simp [AuthSock.recvToBuffer, h.buffer, hk], h.ready,
      by simp [AuthSock.recvToBuffer, h.buffer, hk], by simp [AuthSock.recvToBuffer, h.buffer, hk]⟩

theorem recv_fault (s : AuthSock) (n : ℕ) (peek : Bool) :
    s.recvToBuffer true n peek = (socketError, s) := by
  unfold AuthSock.recvToBuffer
  split <;> rfl

theorem recv_invalid {s : AuthSock} (h : s.hSocket = none) (fault : Bool) (n : ℕ) (peek : Bool) :
    s.recvToBuffer fault n peek = (socketError, s) := by
  unfold AuthSock.recvToBuffer
  rw [h]
  cases s.pReadBuffer <;> rfl

theorem Live.fionread {c : NetCommunicator} {u : List UInt8} {b : SMsgBuffer} (h : Live c u b) :
    c.fionread = u.length := by
  obtain ⟨k, hk, rfl⟩ := h.socket
  simp only [NetCommunicator.fionread, hk]

theorem Live.readBuffer {c : NetCommunicator} {u : List UInt8} {b : SMsgBuffer} (h : Live c u b) :
    c.readBuffer = b.toList := by
  simp only [NetCommunicator.readBuffer, h.buffer]

theorem Live.disconnect {c : NetCommunicator} {u : List UInt8} {b : SMsgBuffer} (h : Live c u b) :
    Closed c.disconnectFromServer := by
  obtain ⟨k, hk, _⟩ := h.socket
  refine ⟨h.ready, ?_, ?_⟩ <;>
    simp [NetCommunicator.disconnectFromServer, AuthSock.disconnect, hk,
      AuthSock.clearSendBufferQueue, h.buffer]

/-- `RecvNextMsg` returned false. Beyond the header it asked for at most a
complete frame, and it left the unread bytes where they were. -/
structure Stopped (R : Receiver) (f : RecvFaults) (provider : Bool) (u : List UInt8)
    (r : Received) : Prop where
  ok : r.ok = false
  asked : ∀ n ∈ r.asked, n ≤ R.header ∨ ∃ g rest, R.next u = some (g, rest) ∧ n = g.length
  after : f ≠ .none ∧ Closed r.comm ∨ ∃ b, Live r.comm u b
  provider : r.comm.pAuthProvider = provider

/-- `RecvNextMsg` returned true: it consumed the frame `g`, whose bytes stand
at the start of the buffer under the header it had peeked. -/
structure Consumed (R : Receiver) (provider : Bool) (u g rest : List UInt8)
    (r : Received) : Prop where
  ok : r.ok = true
  next : R.next u = some (g, rest)
  asked : r.asked = [R.header, g.length]
  got : r.got = g.length
  after : ∃ b, Live r.comm rest b ∧ b.toList.take R.header = u.take R.header ∧
    ∀ n ≤ g.length, n ≤ sizeofSMsgBuffer → b.toList.take n = g.take n
  provider : r.comm.pAuthProvider = provider

def readFrame (R : Receiver) (f : RecvFaults) (avail : ℕ) (header : List UInt8)
    (c : NetCommunicator) : Received :=
  match R.size header with
  | none => ⟨false, c, [R.header], 0⟩
  | some size =>
      if avail < size then ⟨false, c, [R.header], 0⟩
      else
        let (got, sock) := c.sockInterface.recvToBuffer f.read size false
        ⟨got ≠ socketError, { c with sockInterface := sock }, [R.header, size], got⟩

theorem natCast_ne_socketError (n : ℕ) : (n : Int) ≠ socketError := by
  unfold socketError
  omega

theorem recvNextMsg_closed {c : NetCommunicator} (R : Receiver) (f : RecvFaults) (h : Closed c) :
    recvNextMsg R f c = ⟨false, c, [R.header], 0⟩ := by
  rw [recvNextMsg, if_neg (by simp [h.ready]),
    if_neg (by simpa using h.buffer)]
  simp [recv_invalid h.socket]

theorem recvNextMsg_peek_fault {c : NetCommunicator} {u : List UInt8} {b : SMsgBuffer}
    (R : Receiver) {f : RecvFaults} (h : Live c u b) (hf : f.peek = true) :
    recvNextMsg R f c = ⟨false, c, [R.header], 0⟩ := by
  rw [recvNextMsg, if_neg (by simp [h.ready]), if_neg (by simp [h.buffer])]
  simp [hf, recv_fault]

/-- After a peek that worked: the header is not there yet, or it is read and
the rest goes on with the count FIONREAD gave, or with the peeked count on the
closed socket. -/
theorem recvNextMsg_header {c : NetCommunicator} {u : List UInt8} {b : SMsgBuffer}
    (R : Receiver) {f : RecvFaults} (h : Live c u b) (hf : f.peek = false) :
    ∃ c', Live c' u (b.store (u.take R.header)) ∧ c'.pAuthProvider = c.pAuthProvider ∧
      recvNextMsg R f c =
        if u.length < R.header then ⟨false, c', [R.header], 0⟩
        else if f.ioctl then
          readFrame R f R.header (c'.readBuffer.take R.header) c'.disconnectFromServer
        else readFrame R f u.length (c'.readBuffer.take R.header) c' := by
  obtain ⟨hn, hl⟩ := h.recv R.header true
  refine ⟨_, hl, rfl, ?_⟩
  rw [recvNextMsg, if_neg (by simp [h.ready]), if_neg (by simp [h.buffer]), hf]
  simp only [hn, natCast_ne_socketError, ↓reduceIte, hl.fionread]
  by_cases hlen : u.length < R.header
  · rw [if_pos hlen, if_pos]
    rw [List.length_take]
    omega
  · have htake : (u.take R.header).length = R.header := by
      rw [List.length_take]
      omega
    rw [if_neg hlen, if_neg (by omega), htake]
    generalize List.take R.header _ = header
    cases f.ioctl <;> simp only [readFrame, ↓reduceIte, Bool.false_eq_true] <;>
      cases R.size header <;> simp only [gt_iff_lt, Int.ofNat_lt]

theorem recvNextMsg_peeked {c : NetCommunicator} {u : List UInt8} {b : SMsgBuffer}
    (R : Receiver) {f : RecvFaults} (hh : R.header ≤ sizeofSMsgBuffer) (h : Live c u b)
    (hf : f.peek = false) :
    ∃ c', Live c' u (b.store (u.take R.header)) ∧ c'.pAuthProvider = c.pAuthProvider ∧
      recvNextMsg R f c =
        if u.length < R.header then ⟨false, c', [R.header], 0⟩
        else if f.ioctl then readFrame R f R.header (u.take R.header) c'.disconnectFromServer
        else readFrame R f u.length (u.take R.header) c' := by
  obtain ⟨c', hl, hp, he⟩ := recvNextMsg_header R h hf
  refine ⟨c', hl, hp, he.trans ?_⟩
  by_cases hlen : u.length < R.header
  · rw [if_pos hlen, if_pos hlen]
  · have htake : (u.take R.header).length = R.header := by
      rw [List.length_take]
      omega
    rw [if_neg hlen, if_neg hlen, hl.readBuffer, SMsgBuffer.take_store b htake.ge hh,
      List.take_take, Nat.min_self]

/-- On the closed socket the read fails; its size was bounded by the peek. -/
theorem readFrame_closed {c : NetCommunicator} {u : List UInt8} (R : Receiver) {f : RecvFaults}
    (header : List UInt8) (hf : f ≠ .none) (h : Closed c) :
    Stopped R f c.pAuthProvider u (readFrame R f R.header header c) := by
  unfold readFrame
  cases R.size header with
  | none => exact ⟨rfl, by simp, .inl ⟨hf, h⟩, rfl⟩
  | some size =>
      by_cases hs : R.header < size
      · simp only [hs, ↓reduceIte]
        exact ⟨rfl, by simp, .inl ⟨hf, h⟩, rfl⟩
      · simp only [hs, ↓reduceIte, recv_invalid h.socket]
        refine ⟨by simp, ?_, .inl ⟨hf, h⟩, rfl⟩
        intro n hn
        simp only [List.mem_cons, List.not_mem_nil, or_false] at hn
        left
        omega

/-- On the live socket the read consumes a complete frame, or the call stops
and consumes nothing. -/
theorem readFrame_live {c : NetCommunicator} {u : List UInt8} {b : SMsgBuffer} (R : Receiver)
    (f : RecvFaults) (hh : R.header ≤ sizeofSMsgBuffer) (h : Live c u b)
    (hlen : R.header ≤ u.length) (hb : b.toList.take R.header = u.take R.header) :
    Stopped R f c.pAuthProvider u (readFrame R f u.length (u.take R.header) c) ∧
        (f ≠ .none ∨ R.next u = none) ∨
      ∃ g rest, Consumed R c.pAuthProvider u g rest
        (readFrame R f u.length (u.take R.header) c) := by
  have ha : R.announced u = R.size (u.take R.header) := by rw [Framing.announced, if_pos hlen]
  unfold readFrame
  cases hs : R.size (u.take R.header) with
  | none =>
      rw [hs] at ha
      exact .inl ⟨⟨rfl, by simp, .inr ⟨b, h⟩, rfl⟩, .inr (Framing.next_eq_none_of_announced ha)⟩
  | some size =>
      rw [hs] at ha
      by_cases hlt : u.length < size
      · simp only [hlt, ↓reduceIte]
        exact .inl ⟨⟨rfl, by simp, .inr ⟨b, h⟩, rfl⟩, .inr (Framing.next_eq_none_of_lt ha hlt)⟩
      · have hsize : (u.take size).length = size := by
          rw [List.length_take]
          omega
        have hnext : R.next u = some (u.take size, u.drop size) :=
          Framing.next_eq_some_iff.mpr ⟨by rw [hsize]; exact ha, (List.take_append_drop _ _).symm⟩
        cases hf : f.read with
        | true =>
            simp only [hlt, ↓reduceIte, recv_fault]
            refine .inl ⟨⟨by simp, ?_, .inr ⟨b, h⟩, rfl⟩, .inl ?_⟩
            · intro n hn
              simp only [List.mem_cons, List.not_mem_nil, or_false] at hn
              rcases hn with rfl | rfl
              · exact .inl le_rfl
              · exact .inr ⟨_, _, hnext, hsize.symm⟩
            · rintro rfl
              cases hf
        | false =>
            obtain ⟨hn, hl⟩ := h.recv size false
            refine .inr ⟨u.take size, u.drop size, ?_⟩
            simp only [hlt, ↓reduceIte, hn, hsize]
            refine ⟨by simp [natCast_ne_socketError], hnext, by rw [hsize], by rw [hsize],
              ⟨_, hl, b.take_store_agree hb hlen hh, ?_⟩, rfl⟩
            intro n hle hbuf
            exact SMsgBuffer.take_store b hle hbuf

/-- The case analysis of `RecvNextMsg` on a ready communicator, whatever fails. -/
theorem recvNextMsg_cases {c : NetCommunicator} {u : List UInt8} {b : SMsgBuffer} (R : Receiver)
    (f : RecvFaults) (hh : R.header ≤ sizeofSMsgBuffer) (h : Live c u b) :
    Stopped R f c.pAuthProvider u (recvNextMsg R f c) ∧ (f ≠ .none ∨ R.next u = none) ∨
      ∃ g rest, Consumed R c.pAuthProvider u g rest (recvNextMsg R f c) := by
  cases hf : f.peek with
  | true =>
      rw [recvNextMsg_peek_fault R h hf]
      refine .inl ⟨⟨rfl, by simp, .inr ⟨b, h⟩, rfl⟩, .inl ?_⟩
      rintro rfl
      cases hf
  | false =>
      obtain ⟨c', hl, hp, he⟩ := recvNextMsg_peeked R hh h hf
      rw [he, ← hp]
      by_cases hlen : u.length < R.header
      · rw [if_pos hlen]
        refine .inl ⟨⟨rfl, by simp, .inr ⟨_, hl⟩, rfl⟩,
          .inr (Framing.next_eq_none_of_announced ?_)⟩
        rw [Framing.announced, if_neg (by omega)]
      · have htake : R.header ≤ (u.take R.header).length := by
          rw [List.length_take]
          omega
        have hhead : (b.store (u.take R.header)).toList.take R.header = u.take R.header := by
          rw [SMsgBuffer.take_store b htake hh, List.take_take, Nat.min_self]
        rw [if_neg hlen]
        cases hi : f.ioctl with
        | true =>
            have hne : f ≠ .none := by
              rintro rfl
              cases hi
            rw [if_pos rfl]
            exact .inl ⟨readFrame_closed R _ hne hl.disconnect, .inl hne⟩
        | false =>
            rw [if_neg (by simp)]
            exact readFrame_live R f hh hl (by omega) hhead

def Receiver.message (R : Receiver) (provider : Bool) (g : List UInt8) : Option (List UInt8) :=
  (R.handled provider (g.take R.header)).map fun size => g.take size

theorem recvLoop_stopped {R : Receiver} (faults : ℕ → RecvFaults) {c : NetCommunicator}
    (round : ℕ) (h : (recvNextMsg R (faults round) c).ok = false) (fuel : ℕ) :
    recvLoop R faults (fuel + 1) round c =
      ([⟨false, (recvNextMsg R (faults round) c).asked, (recvNextMsg R (faults round) c).got,
          none⟩],
        some (recvNextMsg R (faults round) c).comm) := by
  simp [recvLoop, h]

/-- A round that consumes `g`: the handler, if there is one for the header, gets
what the buffer holds; the loop goes on behind `g`. -/
theorem recvLoop_consumed {R : Receiver} (faults : ℕ → RecvFaults) {c : NetCommunicator}
    {u g rest : List UInt8} (round : ℕ)
    (h : Consumed R c.pAuthProvider u g rest (recvNextMsg R (faults round) c)) (fuel : ℕ) :
    ∃ c' b handled, Live c' rest b ∧ c'.pAuthProvider = c.pAuthProvider ∧
      handled = (R.handled c.pAuthProvider (u.take R.header)).map (fun size => b.toList.take size) ∧
      (∀ n ≤ g.length, n ≤ sizeofSMsgBuffer → b.toList.take n = g.take n) ∧
      recvLoop R faults (fuel + 1) round c =
        (⟨true, [R.header, g.length], g.length, handled⟩ ::
          (recvLoop R faults fuel (round + 1) c').1,
          (recvLoop R faults fuel (round + 1) c').2) := by
  obtain ⟨b, hl, hhead, hbytes⟩ := h.after
  refine ⟨_, b, _, hl, h.provider, rfl, hbytes, ?_⟩
  simp only [recvLoop, h.ok, Bool.not_true, Bool.false_eq_true, ↓reduceIte, h.asked, h.got,
    h.provider, hl.readBuffer, hhead]

end TestCodes.AuthProvider
