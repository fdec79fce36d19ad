import TestCodes.AuthProvider.AuthSock
import TestCodes.Lib.Machine
import TestCodes.Lib.Pipe

/-! One connection of an `AuthSock`: what the socket has taken against what
`SendMsg` promised, for every pattern of partial sends. -/
namespace TestCodes.AuthProvider
open Machine (Along always foldl_invariant)

@[simp] theorem length_readMem (block : List UInt8) (beyond : ℕ → UInt8) (off n : ℕ) :
    (readMem block beyond off n).length = n := by
  simp only [readMem, List.length_map, List.length_range]

theorem readMem_inside (block : List UInt8) (beyond : ℕ → UInt8) {off n : ℕ}
    (h : off + n ≤ block.length) : readMem block beyond off n = (block.drop off).take n := by
  apply List.ext_getElem
  · simp only [length_readMem, List.length_take, List.length_drop]
    omega
  · intro i hi _
    have hin : off + i < block.length := by
      rw [length_readMem] at hi
      omega
    simp [readMem, hin]

theorem sendFromBuffer_cases {s : AuthSock} {k : Socket} (hk : s.hSocket = some k)
    (choice : SendChoice) (buffer : List UInt8) :
    (choice = .fail ∧ s.sendFromBuffer choice buffer buffer.length = (socketError, s)) ∨
    ∃ n ≤ buffer.length,
      (choice = .wouldBlock ∧ n = 0 ∨
        ∃ count, choice = .accept count ∧ n = min count buffer.length) ∧
      s.sendFromBuffer choice buffer buffer.length =
        ((n : Int),
          { s with hSocket := some { k with accepted := k.accepted ++ buffer.take n } }) := by
  cases choice with
  | fail => exact .inl ⟨rfl, by simp [AuthSock.sendFromBuffer, hk]⟩
  | wouldBlock =>
      refine .inr ⟨0, Nat.zero_le _, .inl ⟨rfl, rfl⟩, ?_⟩
      cases s
      simp_all [AuthSock.sendFromBuffer]
  | accept count =>
      refine .inr ⟨min count buffer.length, Nat.min_le_right _ _, .inr ⟨count, rfl, rfl⟩, ?_⟩
      have hneg : ¬ (buffer.length : Int) < 0 := by omega
      simp [AuthSock.sendFromBuffer, hk, hneg]

/-- The bytes the queue holds that have not been taken yet. -/
def pendingOf (queue : List SendBuffer) (off : ℕ) : List UInt8 :=
  (queue.map Prod.fst).flatten.drop off

@[simp] theorem pendingOf_nil (off : ℕ) : pendingOf [] off = [] := by
  simp only [pendingOf, List.map_nil, List.flatten_nil, List.drop_nil]

def AuthSock.pending (s : AuthSock) : List UInt8 :=
  pendingOf s.sendBufferQueue s.iSendBufferOffset

/-- Each recorded length is that of its allocation, and the offset points into
the front entry. -/
structure WellQueued (queue : List SendBuffer) (off : ℕ) : Prop where
  entries : ∀ e ∈ queue, 0 < e.1.length ∧ e.2 = e.1.length
  offset : ∀ e ∈ queue.head?, off < e.1.length

theorem WellQueued.nil (off : ℕ) : WellQueued [] off :=
  ⟨fun _ h => absurd h List.not_mem_nil, fun _ h => by simp at h⟩

theorem WellQueued.rest {e : SendBuffer} {queue : List SendBuffer} {off : ℕ}
    (h : WellQueued (e :: queue) off) : WellQueued queue 0 := by
  have tail : ∀ e' ∈ queue, 0 < e'.1.length ∧ e'.2 = e'.1.length :=
    fun e' he => h.entries e' (List.mem_cons_of_mem _ he)
  exact ⟨tail, fun e' he => (tail e' (List.mem_of_mem_head? he)).1⟩

theorem WellQueued.push {queue : List SendBuffer} {off : ℕ} (h : WellQueued queue off)
    {block : List UInt8} (hpos : 0 < block.length) (hoff : queue = [] → off = 0) :
    WellQueued (queue ++ [(block, block.length)]) off := by
  constructor
  · intro e he
    rcases List.mem_append.mp he with old | new
    · exact h.entries e old
    · obtain rfl := List.mem_singleton.mp new
      exact ⟨hpos, rfl⟩
  · intro e he
    cases queue with
    | nil =>
        obtain rfl : (block, block.length) = e := by simpa using he
        simpa only [hoff rfl] using hpos
    | cons front queue => exact h.offset e (by simpa using he)

theorem pendingOf_push (queue : List SendBuffer) {off : ℕ} (entry : SendBuffer)
    (h : WellQueued queue off) (hoff : queue = [] → off = 0) :
    pendingOf (queue ++ [entry]) off = pendingOf queue off ++ entry.1 := by
  simp only [pendingOf, List.map_append, List.flatten_append, List.map_cons, List.map_nil,
    List.flatten_cons, List.flatten_nil, List.append_nil]
  cases queue with
  | nil => simp [hoff rfl]
  | cons front queue =>
      have hf : off < front.1.length := h.offset front (by simp)
      apply List.drop_append_of_le_length
      simp only [List.map_cons, List.flatten_cons, List.length_append]
      omega

/-- The effect of a call on a live connection, as the pipe sees it. -/
structure Delivered (k : Socket) (pending : List UInt8) (n : ℕ) (s : AuthSock) : Prop where
  socket : s.hSocket = some { k with accepted := k.accepted ++ pending.take n }
  rest : s.pending = pending.drop n
  wellQueued : WellQueued s.sendBufferQueue s.iSendBufferOffset

/-- One round on a front entry that is in order: the socket fails, takes a first part
of what is left of the entry, or takes all of it, and the loop goes on at offset 0. -/
theorem flush_cons (env : SendEnv) (queue : List SendBuffer) (round : ℕ) {s : AuthSock}
    {k : Socket} (hk : s.hSocket = some k) {block front : List UInt8}
    (hoff : s.iSendBufferOffset < block.length) (hfront : block.drop s.iSendBufferOffset = front) :
    (AuthSock.flush env ((block, block.length) :: queue) round s).2 =
        { s with sendBufferQueue := (block, block.length) :: queue } ∨
      (∃ n < front.length, (AuthSock.flush env ((block, block.length) :: queue) round s).2 =
        { s with
          hSocket := some { k with accepted := k.accepted ++ front.take n }
          sendBufferQueue := (block, block.length) :: queue
          iSendBufferOffset := s.iSendBufferOffset + n }) ∨
      AuthSock.flush env ((block, block.length) :: queue) round s =
        AuthSock.flush env queue (round + 1)
          { s with
            hSocket := some { k with accepted := k.accepted ++ front }
            sendBufferQueue := (block, block.length) :: queue
            iSendBufferOffset := 0 } := by
  have hlen : front.length = block.length - s.iSendBufferOffset := by
    rw [← hfront, List.length_drop]
  have hsize : (block.length : Int) - s.iSendBufferOffset = (front.length : Int) := by
    omega
  have hmem : readMem block env.beyond s.iSendBufferOffset front.length = front := by
    rw [readMem_inside block env.beyond (by omega), hfront, List.take_length]
  rw [AuthSock.flush, hsize, Int.toNat_natCast, hmem]
  rcases sendFromBuffer_cases hk (env.choice round) front with ⟨-, hs⟩ | ⟨n, hn, -, hs⟩
  · refine .inl ?_
    simp only [hs, ↓reduceIte]
  · have hne : (n : Int) ≠ socketError := by
      unfold socketError
      omega
    simp only [hs, hne, ↓reduceIte, Int.toNat_natCast]
    by_cases hlt : n < front.length
    · rw [if_pos (Int.ofNat_lt.mpr hlt)]
      exact .inr (.inl ⟨n, hlt, rfl⟩)
    · rw [if_neg (mt Int.ofNat_lt.mp hlt), List.take_of_length_le (Nat.not_lt.mp hlt)]
      exact .inr (.inr rfl)

/-- However the socket cuts the flush, it takes a first part of what was
pending and leaves the rest pending. The induction is on the queue: a round
either stops the loop or empties the front entry. -/
theorem flush_delivers (env : SendEnv) (queue : List SendBuffer) (round : ℕ) (s : AuthSock)
    {k : Socket} (hk : s.hSocket = some k) (h : WellQueued queue s.iSendBufferOffset) :
    ∃ n, Delivered k (pendingOf queue s.iSendBufferOffset) n
      (AuthSock.flush env queue round s).2 := by
  induction queue generalizing round s k with
  | nil => exact ⟨0, by simpa [AuthSock.flush, pendingOf] using hk, by simp [AuthSock.flush,
      AuthSock.pending, pendingOf], by simpa [AuthSock.flush] using WellQueued.nil _⟩
  | cons entry queue ih =>
      obtain ⟨block, len⟩ := entry
      obtain ⟨hpos, rfl : len = block.length⟩ := h.entries (block, len) List.mem_cons_self
      have hoff : s.iSendBufferOffset < block.length := h.offset _ rfl
      obtain ⟨front, hfront⟩ : ∃ front, block.drop s.iSendBufferOffset = front := ⟨_, rfl⟩
      have hpend : pendingOf ((block, block.length) :: queue) s.iSendBufferOffset =
          front ++ pendingOf queue 0 := by
        rw [← hfront]
        simp only [pendingOf, List.map_cons, List.flatten_cons, List.drop_zero]
        exact List.drop_append_of_le_length hoff.le
      rcases flush_cons env queue round hk hoff hfront with hs | ⟨n, hn, hs⟩ | hs
      · rw [hs]
        exact ⟨0, by simpa using hk, rfl, h⟩
      · rw [hs]
        refine ⟨n, ?_, ?_, h.entries, ?_⟩
        · rw [hpend, List.take_append_of_le_length hn.le]
        · exact (List.drop_drop ..).symm
        · intro e he
          obtain rfl := Option.some.inj he
          rw [← hfront, List.length_drop] at hn
          show s.iSendBufferOffset + n < block.length
          omega
      · rw [hs]
        obtain ⟨m, hm⟩ := ih (round + 1)
          { s with
            hSocket := some { k with accepted := k.accepted ++ front }
            sendBufferQueue := (block, block.length) :: queue
            iSendBufferOffset := 0 } rfl h.rest
        refine ⟨front.length + m, ?_, ?_, hm.wellQueued⟩
        · rw [hm.socket, hpend, List.take_length_add_append, List.append_assoc]
        · rw [hm.rest, hpend, List.drop_length_add_append]

theorem newDataSize_of_pos {d : SendData} (h : 0 < d.newDataSize) :
    d.newDataSize = d.bytes.length := by
  have hfits := d.fits
  simp only [SendData.newDataSize, BitVec.toInt_eq_toNat_cond, BitVec.toNat_ofNat] at h ⊢
  omega

theorem pushRemainder_zero (s : AuthSock) {d : SendData} (h : d.newDataSize = d.bytes.length) :
    s.pushRemainder d 0 =
      { s with sendBufferQueue := s.sendBufferQueue ++ [(d.bytes, d.bytes.length)] } := by
  simp [AuthSock.pushRemainder, h]

theorem sendMsg_rejected (s : AuthSock) (choice : SendChoice) {d : SendData}
    (h : ¬ 0 < d.newDataSize) : s.sendMsg choice d = (false, s) := by
  simp [AuthSock.sendMsg, h]

theorem sendMsg_queued {s : AuthSock} (choice : SendChoice) {d : SendData}
    (h : 0 < d.newDataSize) (hq : s.sendBufferQueue ≠ []) :
    s.sendMsg choice d = (true, s.pushRemainder d 0) := by
  simp [AuthSock.sendMsg, h, hq]

theorem sendMsg_direct {s t : AuthSock} {choice : SendChoice} {d : SendData} {n : Int}
    (h : 0 < d.newDataSize) (hq : s.sendBufferQueue = [])
    (hs : s.sendFromBuffer choice d.bytes d.newDataSize = (n, t)) :
    s.sendMsg choice d =
      if n = socketError then (false, t)
      else if n = d.newDataSize then (true, t) else (true, t.pushRemainder d n) := by
  simp [AuthSock.sendMsg, h, hq, hs]

/-- On an empty queue the socket takes the whole message, or nothing of it
while the offset is at 0, or fails. -/
def wholeSend (s : AuthSock) (choice : SendChoice) (d : SendData) : Prop :=
  0 < d.newDataSize → s.sendBufferQueue = [] →
    match choice with
    | .accept count => d.bytes.length ≤ count ∨ count = 0 ∧ s.iSendBufferOffset = 0
    | .wouldBlock => s.iSendBufferOffset = 0
    | .fail => True

instance wholeSend.decidable (s : AuthSock) (choice : SendChoice) (d : SendData) :
    Decidable (wholeSend s choice d) :=
  match choice with
  | .accept count => inferInstanceAs (Decidable (0 < d.newDataSize → s.sendBufferQueue = [] →
      d.bytes.length ≤ count ∨ count = 0 ∧ s.iSendBufferOffset = 0))
  | .wouldBlock => inferInstanceAs (Decidable (0 < d.newDataSize → s.sendBufferQueue = [] →
      s.iSendBufferOffset = 0))
  | .fail => inferInstanceAs (Decidable (0 < d.newDataSize → s.sendBufferQueue = [] → True))

theorem push_delivers {s : AuthSock} {k : Socket} (hk : s.hSocket = some k)
    (h : WellQueued s.sendBufferQueue s.iSendBufferOffset) {d : SendData}
    (hpos : 0 < d.newDataSize) (hoff : s.sendBufferQueue = [] → s.iSendBufferOffset = 0) :
    Delivered k (s.pending ++ d.bytes) 0 (s.pushRemainder d 0) := by
  have hsize := newDataSize_of_pos hpos
  rw [pushRemainder_zero s hsize]
  refine ⟨by simpa using hk, ?_, h.push (by omega) hoff⟩
  exact pendingOf_push _ (d.bytes, d.bytes.length) h hoff

theorem sendMsg_delivers {s : AuthSock} {k : Socket} (hk : s.hSocket = some k)
    (h : WellQueued s.sendBufferQueue s.iSendBufferOffset) (choice : SendChoice) (d : SendData)
    (whole : wholeSend s choice d) :
    ∃ n, Delivered k (s.pending ++ if (s.sendMsg choice d).1 then d.bytes else []) n
      (s.sendMsg choice d).2 := by
  have idle : Delivered k (s.pending ++ []) 0 s :=
    ⟨by simpa using hk, by simp only [List.append_nil, List.drop_zero, AuthSock.pending], h⟩
  by_cases hpos : 0 < d.newDataSize
  · have hsize := newDataSize_of_pos hpos
    by_cases hq : s.sendBufferQueue = []
    · have hp : s.pending = [] := by simp [AuthSock.pending, pendingOf, hq]
      have hw := whole hpos hq
      rcases sendFromBuffer_cases hk choice d.bytes with ⟨_, hs⟩ | ⟨n, hn, hc, hs⟩
      · have he : s.sendMsg choice d = (false, s) := by
          rw [sendMsg_direct hpos hq (hsize ▸ hs), if_pos rfl]
        rw [he]
        exact ⟨0, idle⟩
      · have hne : (n : Int) ≠ socketError := by
          unfold socketError
          omega
        have he := sendMsg_direct hpos hq (hsize ▸ hs)
        rw [if_neg hne] at he
        by_cases hall : n = d.bytes.length
        · rw [if_pos (by omega)] at he
          rw [he]
          refine ⟨n, ?_, ?_, h⟩
          · simp only [hp, List.nil_append, ↓reduceIte]
          · simp only [AuthSock.pending, pendingOf, hq, hall, List.map_nil, List.flatten_nil,
              List.drop_nil, ↓reduceIte, List.nil_append, List.drop_length]
        · -- what is queued is the whole message, because nothing of it was taken
          have hz : n = 0 ∧ s.iSendBufferOffset = 0 := by
            rcases hc with ⟨rfl, rfl⟩ | ⟨count, rfl, hcount⟩
            · exact ⟨rfl, hw⟩
            · rcases hw with big | ⟨zero, hoff⟩
              · omega
              · exact ⟨by omega, hoff⟩
          obtain ⟨rfl, hoff⟩ := hz
          have hself : { s with hSocket := some { k with
              accepted := k.accepted ++ d.bytes.take 0 } } = s := by
            cases s
            simpa using hk.symm
          rw [if_neg (by omega), hself] at he
          rw [he]
          exact ⟨0, push_delivers hk h hpos (fun _ => hoff)⟩
    · rw [sendMsg_queued choice hpos hq]
      exact ⟨0, push_delivers hk h hpos (fun he => absurd he hq)⟩
  · rw [sendMsg_rejected s choice hpos]
    exact ⟨0, idle⟩

/-- The calls made on one connection, each with the socket's choices. -/
inductive Call where
  | sendMsg (choice : SendChoice) (pData : SendData)
  | sendFromBufferQueue (env : SendEnv)

/-- A connection with its history: in call order, the messages for which
`SendMsg` returned true. -/
structure Link where
  sock : AuthSock
  promised : List UInt8

def Link.accepted (l : Link) : List UInt8 :=
  match l.sock.hSocket with
  | none => []
  | some k => k.accepted

def Link.step (l : Link) : Call → Link
  | .sendMsg choice d =>
      let (sent, sock) := l.sock.sendMsg choice d
      { sock, promised := l.promised ++ if sent then d.bytes else [] }
  | .sendFromBufferQueue env => { l with sock := (l.sock.sendFromBufferQueue env).2 }

/-- The stream law of one connection. -/
structure Link.Intact (l : Link) : Prop where
  prefixed : l.accepted <+: l.promised
  complete : l.sock.sendBufferQueue = [] → l.accepted = l.promised

/-- The connection refines the abstract pipe: same bytes taken, same bytes
promised, and the queue holds what the pipe has pending. -/
structure Link.Refines (l : Link) (p : Pipe UInt8) : Prop where
  socket : ∃ k, l.sock.hSocket = some k ∧ k.accepted = p.taken
  promised : l.promised = p.promised
  pending : l.sock.pending = p.pending
  wellQueued : WellQueued l.sock.sendBufferQueue l.sock.iSendBufferOffset

theorem Link.Refines.intact {l : Link} {p : Pipe UInt8} (h : l.Refines p) : l.Intact := by
  obtain ⟨k, hk, hacc⟩ := h.socket
  have ha : l.accepted = p.taken := by rw [Link.accepted, hk]; exact hacc
  refine ⟨by rw [ha, h.promised]; exact p.taken_prefix, ?_⟩
  intro hq
  rw [ha, h.promised]
  apply p.taken_all
  rw [← h.pending, AuthSock.pending, hq, pendingOf_nil]

theorem Delivered.refines {l : Link} {p : Pipe UInt8} {k : Socket} {msg : List UInt8} {n : ℕ}
    {s : AuthSock} (h : l.Refines p) (hacc : k.accepted = p.taken)
    (hd : Delivered k (l.sock.pending ++ msg) n s) :
    Link.Refines ⟨s, l.promised ++ msg⟩ ((p.offer msg).deliver n) := by
  refine ⟨⟨_, hd.socket, ?_⟩, ?_, ?_, hd.wellQueued⟩
  · simp only [Pipe.deliver, Pipe.offer, hacc, h.pending]
  · simp only [Pipe.deliver, Pipe.offer, h.promised]
  · simp only [Pipe.deliver, Pipe.offer, hd.rest, h.pending]

/-- The branch that goes wrong is not taken: a `SendMsg` made on an empty queue
is not accepted in part, and queues its message only at offset 0. -/
def Link.wholeSend (l : Link) : Call → Prop
  | .sendMsg choice d => AuthProvider.wholeSend l.sock choice d
  | .sendFromBufferQueue _ => True

instance Link.wholeSend.decidable (l : Link) : ∀ c, Decidable (l.wholeSend c)
  | .sendMsg choice d => AuthProvider.wholeSend.decidable l.sock choice d
  | .sendFromBufferQueue _ => inferInstanceAs (Decidable True)

/-- Every admitted call is one offer to the pipe and one delivery from it. -/
theorem Link.step_refines {l : Link} {p : Pipe UInt8} (h : l.Refines p) (c : Call)
    (whole : l.wholeSend c) : ∃ msg n, (l.step c).Refines ((p.offer msg).deliver n) := by
  obtain ⟨k, hk, hacc⟩ := h.socket
  cases c with
  | sendMsg choice d =>
      obtain ⟨n, hd⟩ := sendMsg_delivers hk h.wellQueued choice d whole
      exact ⟨_, n, hd.refines h hacc⟩
  | sendFromBufferQueue env =>
      obtain ⟨n, hd⟩ := flush_delivers env l.sock.sendBufferQueue 0 l.sock hk h.wellQueued
      have hd' : Delivered k (l.sock.pending ++ []) n (l.sock.sendFromBufferQueue env).2 := by
        rw [List.append_nil]
        exact hd
      refine ⟨[], n, ?_⟩
      have hr := hd'.refines h hacc
      rw [List.append_nil] at hr
      exact hr

theorem Link.run_refines {l : Link} {p : Pipe UInt8} (h : l.Refines p) {calls : List Call}
    (whole : Along (always Link.step) Link.wholeSend l calls) :
    ∃ p', (calls.foldl Link.step l).Refines p' := by
  apply foldl_invariant (fun l => ∃ p, Link.Refines l p) ?_ ⟨p, h⟩ whole
  rintro l c ⟨p, h⟩ hc
  obtain ⟨msg, n, hr⟩ := Link.step_refines h c hc
  exact ⟨_, hr⟩

/-- Everything an `AuthSock` can be put through. A connect is attempted only
while there is no socket. -/
inductive Life : AuthSock → Prop where
  | new (address : SockAddr) (b : Option SMsgBuffer) : Life (.new address b)
  | connectToServer {s : AuthSock} (env : ConnectEnv) : Life s → s.hSocket = none →
      Life (s.connectToServer env).2
  | disconnect {s : AuthSock} : Life s → Life s.disconnect
  | sendMsg {s : AuthSock} (choice : SendChoice) (d : SendData) : Life s →
      Life (s.sendMsg choice d).2
  | sendFromBufferQueue {s : AuthSock} (env : SendEnv) : Life s →
      Life (s.sendFromBufferQueue env).2
  | recvToBuffer {s : AuthSock} (fault : Bool) (size : ℕ) (peek : Bool) : Life s →
      Life (s.recvToBuffer fault size peek).2

theorem sendFromBuffer_invalid {s : AuthSock} (h : s.hSocket = none) (choice : SendChoice)
    (buffer : List UInt8) (size : Int) :
    s.sendFromBuffer choice buffer size = (socketError, s) := by
  simp only [AuthSock.sendFromBuffer, h]

theorem sendFromBuffer_isSome (s : AuthSock) (choice : SendChoice) (buffer : List UInt8)
    (size : Int) : (s.sendFromBuffer choice buffer size).2.hSocket.isSome = s.hSocket.isSome := by
  unfold AuthSock.sendFromBuffer
  split
  · rfl
  · rfl
  · rfl
  · rename_i hk
    split
    · rfl
    · rw [hk]
      rfl

theorem flush_isSome (env : SendEnv) (queue : List SendBuffer) (round : ℕ) (s : AuthSock) :
    (AuthSock.flush env queue round s).2.hSocket.isSome = s.hSocket.isSome := by
  induction queue generalizing round s with
  | nil => rfl
  | cons front queue ih =>
      have hs := sendFromBuffer_isSome s (env.choice round)
        (readMem front.1 env.beyond s.iSendBufferOffset
          ((front.2 : Int) - s.iSendBufferOffset).toNat) (front.2 - s.iSendBufferOffset)
      simp only [AuthSock.flush]
      split
      · exact hs
      · split
        · exact hs
        · exact (ih _ _).trans hs

theorem sendMsg_isSome (s : AuthSock) (choice : SendChoice) (d : SendData) :
    (s.sendMsg choice d).2.hSocket.isSome = s.hSocket.isSome := by
  by_cases hpos : 0 < d.newDataSize
  · by_cases hq : s.sendBufferQueue = []
    · have hs := sendFromBuffer_isSome s choice d.bytes d.newDataSize
      cases hr : s.sendFromBuffer choice d.bytes d.newDataSize with
      | mk n t =>
          rw [hr] at hs
          rw [sendMsg_direct hpos hq hr]
          split
          · exact hs
          · split <;> exact hs
    · rw [sendMsg_queued choice hpos hq]
      rfl
  · rw [sendMsg_rejected s choice hpos]

/-- Nothing is ever queued without a socket: a clean-up empties the queue, and
a send that fails queues nothing. -/
theorem Life.queue_of_invalid {s : AuthSock} (h : Life s) (hs : s.hSocket = none) :
    s.sendBufferQueue = [] := by
  induction h with
  | new => rfl
  | connectToServer env _ hnone ih =>
      unfold AuthSock.connectToServer
      repeat' split
      all_goals exact ih hnone
  | @disconnect s _ ih =>
      cases hk : s.hSocket with
      | none =>
          simp only [AuthSock.disconnect, hk]
          exact ih hk
      | some k => simp only [AuthSock.disconnect, hk, AuthSock.clearSendBufferQueue]
  | @sendMsg s choice d _ ih =>
      have hnone : s.hSocket = none := by
        rwa [← Option.not_isSome_iff_eq_none, sendMsg_isSome, Option.not_isSome_iff_eq_none] at hs
      by_cases hpos : 0 < d.newDataSize
      · rw [sendMsg_direct hpos (ih hnone) (sendFromBuffer_invalid hnone _ _ _), if_pos rfl]
        exact ih hnone
      · rw [sendMsg_rejected s choice hpos]
        exact ih hnone
  | @sendFromBufferQueue s env _ ih =>
      have hnone : s.hSocket = none := by
        rwa [← Option.not_isSome_iff_eq_none, AuthSock.sendFromBufferQueue, flush_isSome,
          Option.not_isSome_iff_eq_none] at hs
      simp only [AuthSock.sendFromBufferQueue, ih hnone, AuthSock.flush]
  | @recvToBuffer s fault size peek _ ih =>
      unfold AuthSock.recvToBuffer at hs ⊢
      cases hb : s.pReadBuffer with
      | none =>
          simp only [hb] at hs ⊢
          exact ih hs
      | some b =>
          cases hk : s.hSocket with
          | none =>
              simp only [hb, hk] at hs ⊢
              exact ih hk
          | some k =>
              cases fault <;> simp [hb, hk] at hs

theorem connectToServer_true {s s' : AuthSock} {env : ConnectEnv}
    (connect : s.connectToServer env = (true, s')) :
    s' = { s with hSocket := some Socket.fresh } := by
  unfold AuthSock.connectToServer at connect
  repeat' split at connect
  all_goals simp only [Prod.mk.injEq, Bool.false_eq_true, false_and] at connect
  exact connect.2.symm

/-- What a successful connect leaves: a connection that has taken nothing and
an empty queue. The offset is what the last connection left. -/
theorem Life.connected {s₀ s : AuthSock} {env : ConnectEnv} (life : Life s₀)
    (invalid : s₀.hSocket = none) (connect : s₀.connectToServer env = (true, s)) :
    s.hSocket = some Socket.fresh ∧ s.sendBufferQueue = [] := by
  obtain rfl := connectToServer_true connect
  exact ⟨rfl, life.queue_of_invalid invalid⟩

theorem connected_refines {s : AuthSock} (hs : s.hSocket = some Socket.fresh)
    (hq : s.sendBufferQueue = []) : Link.Refines ⟨s, []⟩ Pipe.empty := by
  refine ⟨⟨_, hs, rfl⟩, rfl, ?_, ?_⟩
  · rw [AuthSock.pending, hq, pendingOf_nil]
    rfl
  · rw [hq]
    exact WellQueued.nil _

/-- From a connect on, whatever the socket does to each `send()`, the bytes it
has taken are a prefix of the promised messages, and all of them once the queue
is empty. -/
theorem link_intact {s₀ s : AuthSock} (env : ConnectEnv) (life : Life s₀)
    (invalid : s₀.hSocket = none) (connect : s₀.connectToServer env = (true, s))
    (calls : List Call) (whole : Along (always Link.step) Link.wholeSend ⟨s, []⟩ calls) :
    (calls.foldl Link.step ⟨s, []⟩).Intact := by
  obtain ⟨hs, hq⟩ := life.connected invalid connect
  obtain ⟨p, hp⟩ := Link.run_refines (connected_refines hs hq) whole
  exact hp.intact

/-- A message that has to wait whole and then leaves in two parts. -/
theorem link_intact_waiting :
    Link.Intact ([.sendMsg .wouldBlock ⟨[1, 2, 3], by decide⟩,
      .sendFromBufferQueue ⟨fun _ => .accept 2, fun _ => 0⟩,
      .sendFromBufferQueue ⟨fun _ => .accept 9, fun _ => 0⟩].foldl Link.step
        ⟨((AuthSock.new ⟨1, 1⟩ none).connectToServer ⟨true, true, true⟩).2, []⟩) :=
  link_intact ⟨true, true, true⟩ (.new ⟨1, 1⟩ none) rfl rfl _ (by decide)

/-- The socket takes one byte of three: the queue then holds the first two
bytes again under the recorded length three, and the flush sends them and one
byte from past the allocation. -/
theorem partial_send_corrupts :
    ¬ ∀ (s₀ s : AuthSock) (env : ConnectEnv), Life s₀ → s₀.hSocket = none →
      s₀.connectToServer env = (true, s) →
      ∀ calls : List Call, (calls.foldl Link.step ⟨s, []⟩).Intact := by
  intro h
  have hi := h (.new ⟨1, 1⟩ none) _ ⟨true, true, true⟩ (.new _ _) rfl rfl
    [.sendMsg (.accept 1) ⟨[1, 2, 3], by decide⟩,
      .sendFromBufferQueue ⟨fun _ => .accept 3, fun _ => 0⟩]
  exact absurd hi.prefixed (by decide)

end TestCodes.AuthProvider
