import TestCodes.AuthProvider.Reconnect

/-! `SendBufferQueue` as memory: what is recorded of the entries against what is allocated
for them, and the ranges that are handed to `send()`. -/
namespace TestCodes.AuthProvider
open Machine

inductive SockCall where
  | connectToServer (env : ConnectEnv)
  | disconnect
  | sendMsg (choice : SendChoice) (pData : SendData)
  | sendFromBufferQueue (env : SendEnv)

/-- A pointer into an allocation, and the size that is handed over with it. -/
structure SendRange where
  block : List UInt8
  offset : ℕ
  size : Int

def SendRange.Inside (r : SendRange) : Prop :=
  0 < r.size ∧ r.offset + r.size ≤ r.block.length

namespace AuthSock

def step (s : AuthSock) : SockCall → AuthSock
  | .connectToServer env => (s.connectToServer env).2
  | .disconnect => s.disconnect
  | .sendMsg choice pData => (s.sendMsg choice pData).2
  | .sendFromBufferQueue env => (s.sendFromBufferQueue env).2

def flushRanges (env : SendEnv) : List SendBuffer → ℕ → AuthSock → List SendRange
  | [], _, _ => []
  | (block, len) :: rest, round, s =>
      let iSendSize : Int := len - s.iSendBufferOffset
      let memory := readMem block env.beyond s.iSendBufferOffset iSendSize.toNat
      let (iBytesSent, t) := s.sendFromBuffer (env.choice round) memory iSendSize
      ⟨block, s.iSendBufferOffset, iSendSize⟩ ::
        if iBytesSent = socketError ∨ iBytesSent < iSendSize then []
        else flushRanges env rest (round + 1)
          { t with sendBufferQueue := (block, len) :: rest, iSendBufferOffset := 0 }

def ranges (s : AuthSock) : SockCall → List SendRange
  | .connectToServer _ | .disconnect => []
  | .sendMsg _ pData =>
      if 0 < pData.newDataSize ∧ s.sendBufferQueue = [] then
        [⟨pData.bytes, 0, pData.newDataSize⟩]
      else []
  | .sendFromBufferQueue env => flushRanges env s.sendBufferQueue 0 s

/-- The lengths recorded are those allocated, and at least 1; the offset is inside the front
entry, and 0 when there is none. -/
structure Represented (s : AuthSock) : Prop where
  wellQueued : WellQueued s.sendBufferQueue s.iSendBufferOffset
  idle : s.sendBufferQueue = [] → s.iSendBufferOffset = 0

/-- A message taken in part, or a clean-up of a front entry that is sent in part. -/
def Breaks (s : AuthSock) : SockCall → Prop
  | .sendMsg (.accept count) pData =>
      s.hSocket.isSome ∧ s.sendBufferQueue = [] ∧ 0 < count ∧ (count : Int) < pData.newDataSize
  | .disconnect => s.hSocket.isSome ∧ s.iSendBufferOffset ≠ 0
  | _ => False

theorem sendFromBuffer_answer (s : AuthSock) (choice : SendChoice) (buffer : List UInt8) :
    ∃ answer sock, s.sendFromBuffer choice buffer buffer.length =
        (answer, { s with hSocket := sock }) ∧
      (answer = socketError ∨ ∃ n : ℕ, n ≤ buffer.length ∧ answer = n) := by
  cases hk : s.hSocket with
  | none =>
      refine ⟨socketError, none, ?_, .inl rfl⟩
      rw [sendFromBuffer_invalid hk, ← hk]
  | some k =>
      rcases sendFromBuffer_cases hk choice buffer with ⟨-, hs⟩ | ⟨n, hn, -, hs⟩
      · exact ⟨socketError, some k, hs.trans (by rw [← hk]), .inl rfl⟩
      · exact ⟨n, _, hs, .inr ⟨n, hn, rfl⟩⟩

theorem represented_nil {s : AuthSock} (hq : s.sendBufferQueue = [])
    (hoff : s.iSendBufferOffset = 0) : s.Represented := by
  refine ⟨?_, fun _ => hoff⟩
  rw [hq]
  exact WellQueued.nil _

theorem front_inside {block front : List UInt8} {off : ℕ} (hoff : off < block.length)
    (hfront : block.drop off = front) : SendRange.Inside ⟨block, off, front.length⟩ := by
  have hlen : front.length = block.length - off := by
    rw [← hfront, List.length_drop]
  constructor
  · exact Int.natCast_pos.mpr (by omega)
  · change (off : Int) + (front.length : Int) ≤ block.length
    omega

/-- The induction is on the queue: a round stops inside the front entry, or goes on at the
start of the next one. -/
theorem flush_represented (env : SendEnv) (queue : List SendBuffer) (round : ℕ) (s : AuthSock)
    (h : WellQueued queue s.iSendBufferOffset) (idle : queue = [] → s.iSendBufferOffset = 0) :
    (flush env queue round s).2.Represented ∧
      ∀ r ∈ flushRanges env queue round s, r.Inside := by
  induction queue generalizing round s with
  | nil =>
      refine ⟨represented_nil rfl (idle rfl), ?_⟩
      intro r hr
      cases hr
  | cons entry queue ih =>
      obtain ⟨block, len⟩ := entry
      obtain ⟨hpos, rfl : len = block.length⟩ := h.entries (block, len) List.mem_cons_self
      have hoff : s.iSendBufferOffset < block.length := h.offset _ rfl
      obtain ⟨front, hfront⟩ : ∃ front, block.drop s.iSendBufferOffset = front := ⟨_, rfl⟩
      have hlen : front.length = block.length - s.iSendBufferOffset := by
        rw [← hfront, List.length_drop]
      have hsize : (block.length : Int) - s.iSendBufferOffset = front.length := by omega
      have hmem : readMem block env.beyond s.iSendBufferOffset front.length = front := by
        rw [readMem_inside block env.beyond (by omega), hfront, List.take_length]
      have hinside := front_inside hoff hfront
      have honly : ∀ r ∈ [SendRange.mk block s.iSendBufferOffset front.length], r.Inside := by
        intro r hr
        rw [List.mem_singleton.mp hr]
        exact hinside
      obtain ⟨answer, sock, hs, hanswer⟩ := s.sendFromBuffer_answer (env.choice round) front
      rw [flush, flushRanges, hsize, Int.toNat_natCast, hmem, hs]
      simp only
      by_cases herror : answer = socketError
      · rw [if_pos herror, if_pos (.inl herror)]
        exact ⟨⟨h, fun hq => absurd hq (List.cons_ne_nil _ _)⟩, honly⟩
      obtain ⟨n, hn, rfl⟩ := hanswer.resolve_left herror
      rw [if_neg herror]
      by_cases hpart : (n : Int) < front.length
      · rw [if_pos hpart, if_pos (.inr hpart)]
        refine ⟨⟨⟨h.entries, ?_⟩, fun hq => absurd hq (List.cons_ne_nil _ _)⟩, honly⟩
        intro e he
        obtain rfl := Option.some.inj he
        change s.iSendBufferOffset + n < block.length
        omega
      · rw [if_neg hpart, if_neg (not_or.mpr ⟨herror, hpart⟩)]
        obtain ⟨hrep, hranges⟩ := ih (round + 1)
          { s with
            hSocket := sock
            sendBufferQueue := (block, block.length) :: queue
            iSendBufferOffset := 0 } h.rest fun _ => rfl
        exact ⟨hrep, List.forall_mem_cons.mpr ⟨hinside, hranges⟩⟩

theorem disconnect_represented_iff {s : AuthSock} (h : s.Represented) :
    s.disconnect.Represented ↔ ¬ s.Breaks .disconnect := by
  cases hk : s.hSocket with
  | none =>
      have hsame : s.disconnect = s := by simp only [disconnect, hk]
      rw [hsame]
      refine iff_of_true h ?_
      rintro ⟨hlive, -⟩
      rw [hk] at hlive
      cases hlive
  | some k =>
      have hqueue : s.disconnect.sendBufferQueue = [] := by
        simp only [disconnect, hk, clearSendBufferQueue]
      have hlive : s.hSocket.isSome := by rw [hk]; rfl
      constructor
      · rintro hrep ⟨-, hoff⟩
        rw [← s.disconnect_offset] at hoff
        exact hoff (hrep.idle hqueue)
      · intro hnot
        apply represented_nil hqueue
        rw [s.disconnect_offset]
        by_contra hoff
        exact hnot ⟨hlive, hoff⟩

theorem connectToServer_queue (s : AuthSock) (env : ConnectEnv) :
    (s.connectToServer env).2.sendBufferQueue = s.sendBufferQueue ∧
      (s.connectToServer env).2.iSendBufferOffset = s.iSendBufferOffset := by
  unfold connectToServer
  repeat' split
  all_goals exact ⟨rfl, rfl⟩

theorem push_represented {s t : AuthSock} (h : s.Represented)
    (hq : t.sendBufferQueue = s.sendBufferQueue) (hoff : t.iSendBufferOffset = s.iSendBufferOffset)
    {d : SendData} (hpos : 0 < d.newDataSize) : (t.pushRemainder d 0).Represented := by
  have hsize := newDataSize_of_pos hpos
  rw [pushRemainder_zero t hsize]
  constructor
  · change WellQueued (t.sendBufferQueue ++ _) t.iSendBufferOffset
    rw [hq, hoff]
    exact h.wellQueued.push (by omega) h.idle
  · intro hnil
    exact absurd hnil (List.append_ne_nil_of_right_ne_nil _ (List.cons_ne_nil _ _))

theorem pushRemainder_not_represented {s : AuthSock} {d : SendData} {n : ℕ} (hn : 0 < n)
    (hlt : (n : Int) < d.newDataSize) : ¬ (s.pushRemainder d n).Represented := by
  intro h
  have hsize := newDataSize_of_pos (Int.lt_trans (Int.natCast_pos.mpr hn) hlt)
  obtain ⟨-, hlen⟩ := h.wellQueued.entries
    (d.bytes.take (d.newDataSize - n).toNat, d.newDataSize.toNat)
    (List.mem_append_right _ (List.mem_singleton.mpr rfl))
  rw [List.length_take] at hlen
  omega

theorem breaks_sendMsg {s : AuthSock} {choice : SendChoice} {d : SendData} :
    s.Breaks (.sendMsg choice d) ↔ ∃ count, choice = .accept count ∧ s.hSocket.isSome ∧
      s.sendBufferQueue = [] ∧ 0 < count ∧ (count : Int) < d.newDataSize := by
  constructor
  · intro h
    cases choice with
    | accept count => exact ⟨count, rfl, h⟩
    | wouldBlock => exact h.elim
    | fail => exact h.elim
  · rintro ⟨count, rfl, h⟩
    exact h

/-- On an empty queue the socket is asked first. -/
theorem sendMsg_idle_iff {s : AuthSock} (h : s.Represented) (choice : SendChoice) {d : SendData}
    (hpos : 0 < d.newDataSize) (hq : s.sendBufferQueue = []) :
    (s.sendMsg choice d).2.Represented ↔ ¬ s.Breaks (.sendMsg choice d) := by
  have hsize := newDataSize_of_pos hpos
  cases hk : s.hSocket with
  | none =>
      rw [sendMsg_direct hpos hq (sendFromBuffer_invalid hk _ _ _), if_pos rfl]
      refine iff_of_true h fun hbreaks => ?_
      obtain ⟨count, -, hlive, -⟩ := breaks_sendMsg.mp hbreaks
      rw [hk] at hlive
      cases hlive
  | some k =>
      have hlive : s.hSocket.isSome := by rw [hk]; rfl
      rcases sendFromBuffer_cases hk choice d.bytes with ⟨rfl, hs⟩ | ⟨n, hn, hchoice, hs⟩
      · rw [sendMsg_direct hpos hq (hsize ▸ hs), if_pos rfl]
        exact iff_of_true h id
      have hne : (n : Int) ≠ socketError := by
        unfold socketError
        omega
      have hmin : ∀ count, choice = .accept count → n = min count d.bytes.length := by
        rintro count rfl
        rcases hchoice with ⟨hblock, -⟩ | ⟨_, hacc, hmin⟩
        · cases hblock
        · cases hacc
          exact hmin
      rw [sendMsg_direct hpos hq (hsize ▸ hs), if_neg hne]
      by_cases hall : (n : Int) = d.newDataSize
      · rw [if_pos hall]
        refine iff_of_true (represented_nil hq (h.idle hq)) fun hbreaks => ?_
        obtain ⟨count, hacc, -, -, hcount, hlt⟩ := breaks_sendMsg.mp hbreaks
        have hn := hmin count hacc
        omega
      rw [if_neg hall]
      rcases Nat.eq_zero_or_pos n with rfl | hsome
      · apply iff_of_true
        · apply push_represented h _ _ hpos
          · rfl
          · rfl
        intro hbreaks
        obtain ⟨count, hacc, -, -, hcount, hlt⟩ := breaks_sendMsg.mp hbreaks
        have hn := hmin count hacc
        omega
      · apply iff_of_false (pushRemainder_not_represented hsome (by omega))
        rw [not_not]
        rcases hchoice with ⟨-, hzero⟩ | ⟨count, hacc, hn⟩
        · omega
        · exact breaks_sendMsg.mpr ⟨count, hacc, hlive, hq, by omega, by omega⟩

theorem sendMsg_represented_iff {s : AuthSock} (h : s.Represented) (choice : SendChoice)
    (d : SendData) : (s.sendMsg choice d).2.Represented ↔ ¬ s.Breaks (.sendMsg choice d) := by
  by_cases hpos : 0 < d.newDataSize
  · by_cases hq : s.sendBufferQueue = []
    · exact sendMsg_idle_iff h choice hpos hq
    · rw [sendMsg_queued choice hpos hq]
      refine iff_of_true (push_represented h rfl rfl hpos) fun hbreaks => ?_
      obtain ⟨count, -, -, hnil, -⟩ := breaks_sendMsg.mp hbreaks
      exact hq hnil
  · rw [sendMsg_rejected s choice hpos]
    refine iff_of_true h fun hbreaks => ?_
    obtain ⟨count, -, -, -, hcount, hlt⟩ := breaks_sendMsg.mp hbreaks
    omega

theorem step_represented_iff {s : AuthSock} (h : s.Represented) (c : SockCall) :
    (s.step c).Represented ↔ ¬ s.Breaks c := by
  cases c with
  | connectToServer env =>
      obtain ⟨hq, hoff⟩ := s.connectToServer_queue env
      refine iff_of_true ⟨?_, ?_⟩ id
      · simp only [step, hq, hoff]
        exact h.wellQueued
      · simp only [step, hq, hoff]
        exact h.idle
  | disconnect => exact disconnect_represented_iff h
  | sendMsg choice d => exact sendMsg_represented_iff h choice d
  | sendFromBufferQueue env =>
      exact iff_of_true (flush_represented env _ 0 s h.wellQueued h.idle).1 id

theorem ranges_inside {s : AuthSock} (h : s.Represented) (c : SockCall) :
    ∀ r ∈ s.ranges c, r.Inside := by
  cases c with
  | connectToServer env => exact fun r hr => absurd hr List.not_mem_nil
  | disconnect => exact fun r hr => absurd hr List.not_mem_nil
  | sendMsg choice d =>
      intro r hr
      simp only [ranges] at hr
      split at hr
      · rename_i hdirect
        have hsize := newDataSize_of_pos hdirect.1
        rw [List.mem_singleton.mp hr]
        exact ⟨hdirect.1, by simp [hsize]⟩
      · cases hr
  | sendFromBufferQueue env => exact (flush_represented env _ 0 s h.wellQueued h.idle).2

end AuthSock

/-- The queue is represented, and stays so and hands only its own memory to `send()`. -/
def Sound (s : AuthSock) (calls : List SockCall) : Prop :=
  Throughout (always AuthSock.step) AuthSock.Represented s calls ∧
    Along (always AuthSock.step) (fun s c => ∀ r ∈ s.ranges c, r.Inside) s calls

/-- Over the life of a socket the queue is as recorded, and what is sent is inside it, exactly
when no message is taken in part and no front entry that is sent in part is cleaned up. -/
theorem queue_sound_iff (address : SockAddr) (pReadBuffer : Option SMsgBuffer)
    (calls : List SockCall) : Sound (.new address pReadBuffer) calls ↔
      Along (always AuthSock.step) (fun s c => ¬ s.Breaks c) (.new address pReadBuffer) calls := by
  have hnew : (AuthSock.new address pReadBuffer).Represented := AuthSock.represented_nil rfl rfl
  have hiff : Throughout (always AuthSock.step) AuthSock.Represented (.new address pReadBuffer)
      calls ↔ Along (always AuthSock.step) (fun s c => ¬ s.Breaks c) (.new address pReadBuffer)
        calls := by
    apply Throughout.iff_along AuthSock.Represented (fun s h => h) ?_ ?_ hnew (run_always _ _ _)
    · intro s c t h hstep
      obtain rfl := Option.some.inj hstep
      exact AuthSock.step_represented_iff h c
    · intro s c t h ht hstep
      exact ht
  constructor
  · rintro ⟨hrep, -⟩
    exact hiff.mp hrep
  · intro halong
    refine ⟨hiff.mpr halong, ?_⟩
    rw [along_iff]
    rintro before c after rfl s hs
    obtain ⟨t, ht, hrep⟩ := hiff.mpr halong before (List.prefix_append _ _)
    rw [hs] at ht
    exact AuthSock.ranges_inside (Option.some.inj ht ▸ hrep) c

/-- One byte of three is taken: two are queued, under the length three, and the flush hands
three to `send()`. -/
def partTaken : List SockCall :=
  [.connectToServer ⟨true, true, true⟩, .sendMsg (.accept 1) ⟨[1, 2, 3], by decide⟩,
    .sendFromBufferQueue ⟨fun _ => .accept 3, fun _ => 0⟩]

theorem queue_unsound : ¬ Sound (.new ⟨1, 1⟩ none) partTaken := by
  rintro ⟨-, halong⟩
  have hbad := halong.2.2.1 _ List.mem_cons_self
  exact absurd hbad.2 (by decide)

end TestCodes.AuthProvider
