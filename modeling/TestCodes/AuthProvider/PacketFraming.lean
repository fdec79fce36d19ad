import TestCodes.AuthProvider.ReceiveLoop

/-! Well-formed packets come out of the receive loop whole, in order and once,
wherever the stream that carries them is cut. -/
namespace TestCodes.AuthProvider

theorem Live.arrive {c : NetCommunicator} {u : List UInt8} {b : SMsgBuffer} (h : Live c u b)
    (chunk : List UInt8) : Live (c.arrive chunk) (u ++ chunk) b := by
  obtain ⟨k, hk, rfl⟩ := h.socket
  exact ⟨h.ready, h.buffer, { k with unread := k.unread ++ chunk },
    by simp [NetCommunicator.arrive, hk], rfl⟩

theorem Live.recvAndProcMsg {c : NetCommunicator} {u : List UInt8} {b : SMsgBuffer}
    (h : Live c u b) (R : Receiver) (faults : ℕ → RecvFaults) (fuel : ℕ) :
    recvAndProcMsg R faults fuel c = recvLoop R faults fuel 0 c := by
  rw [AuthProvider.recvAndProcMsg, if_neg (by simp [h.buffer])]

/-- A packet the receiver frames as it is, that fits the buffer, and that is the
whole struct of the handler called for it. -/
structure Receiver.WellFormed (R : Receiver) (provider : Bool) (q : List UInt8) : Prop where
  frame : R.IsFrame q
  pos : 0 < q.length
  le_buffer : q.length ≤ sizeofSMsgBuffer
  handled : ∀ size, R.handled provider (q.take R.header) = some size → size = q.length

def Receiver.messages (R : Receiver) (provider : Bool) (qs : List (List UInt8)) :
    List (List UInt8) :=
  qs.filter fun q => (R.handled provider (q.take R.header)).isSome

/-- What is unread, completed by what is still to come, is a sequence of packets:
the front of the unread bytes is the first of them or not complete yet. -/
theorem next_of_flatten {R : Receiver} {provider : Bool} {q u w g rest : List UInt8}
    {qs : List (List UInt8)} (h : R.WellFormed provider q) (hu : u ++ w = (q :: qs).flatten)
    (hn : R.next u = some (g, rest)) : g = q ∧ rest ++ w = qs.flatten := by
  have hnext := Framing.next_append hn w
  rw [hu, List.flatten_cons, h.frame.next] at hnext
  simp only [Option.some.injEq, Prod.mk.injEq] at hnext
  exact ⟨hnext.1.symm, hnext.2.symm⟩

theorem next_nil (R : Receiver) : R.next [] = none := by
  apply Framing.next_eq_none_of_announced
  have h : ¬ R.header ≤ ([] : List UInt8).length := Nat.not_le.mpr R.header_pos
  rw [Framing.announced, if_neg h]

theorem Receiver.WellFormed.message {R : Receiver} {provider : Bool} {q rest : List UInt8}
    {x : List UInt8} (h : R.WellFormed provider q)
    (hx : ∀ n ≤ q.length, n ≤ sizeofSMsgBuffer → x.take n = q.take n) :
    (R.handled provider ((q ++ rest).take R.header)).map (fun size => x.take size) =
      if (R.handled provider (q.take R.header)).isSome then some q else none := by
  rw [List.take_append_of_le_length (Framing.header_le_of_announced h.frame)]
  cases hs : R.handled provider (q.take R.header) with
  | none => rfl
  | some size =>
      rw [h.handled size hs]
      simp [hx q.length le_rfl h.le_buffer]

theorem Receiver.messages_cons (R : Receiver) (provider : Bool) (q : List UInt8)
    (qs : List (List UInt8)) :
    R.messages provider (q :: qs) =
      (if (R.handled provider (q.take R.header)).isSome then some q else none).toList ++
        R.messages provider qs := by
  unfold messages
  by_cases h : (R.handled provider (q.take R.header)).isSome <;> simp [h]

theorem recvLoop_packets {R : Receiver} (hh : R.header ≤ sizeofSMsgBuffer) {provider : Bool}
    {qs : List (List UInt8)} (hqs : ∀ q ∈ qs, R.WellFormed provider q) {c : NetCommunicator}
    {u w : List UInt8} {b : SMsgBuffer} (h : Live c u b) (hp : c.pAuthProvider = provider)
    (hu : u ++ w = qs.flatten) {fuel : ℕ} (hf : u.length < fuel) (round : ℕ) :
    ∃ rounds c' u' b' done rest,
      recvLoop R (fun _ => .none) fuel round c = (rounds, some c') ∧
      Live c' u' b' ∧ c'.pAuthProvider = provider ∧ R.next u' = none ∧
      qs = done ++ rest ∧ u' ++ w = rest.flatten ∧
      rounds.filterMap Round.handled = R.messages provider done := by
  subst hp
  induction fuel generalizing qs c u b round with
  | zero => cases hf
  | succ fuel ih =>
      rcases recvNextMsg_cases R .none hh h with ⟨hs, hnone⟩ | ⟨g, rest, hc⟩
      · rcases hs.after with ⟨hne, -⟩ | ⟨b', hl⟩
        · exact absurd rfl hne
        · exact ⟨_, _, u, b', [], qs, recvLoop_stopped (fun _ => .none) round hs.ok fuel, hl,
            hs.provider, hnone.resolve_left (absurd rfl), rfl, hu, rfl⟩
      · cases qs with
        | nil =>
            obtain ⟨rfl, -⟩ := List.append_eq_nil_iff.mp hu
            have hnone := hc.next
            rw [next_nil] at hnone
            cases hnone
        | cons q qs =>
            have hq := hqs q List.mem_cons_self
            obtain ⟨rfl, hrest⟩ := next_of_flatten hq hu hc.next
            have hug := (Framing.next_eq_some_iff.mp hc.next).2
            have hlt : rest.length < fuel := by
              have hlen := congrArg List.length hug
              have hpos := hq.pos
              rw [List.length_append] at hlen
              omega
            obtain ⟨c₁, b₁, m, hl, hp₁, rfl, hbytes, hrun⟩ :=
              recvLoop_consumed (fun _ => .none) round hc fuel
            have hqs₁ : ∀ q ∈ qs, R.WellFormed c₁.pAuthProvider q := by
              rw [hp₁]
              exact fun p hp => hqs p (List.mem_cons_of_mem _ hp)
            obtain ⟨rounds, c', u', b', done, left, hloop, hl', hp', hn', hqs', hu', hms⟩ :=
              ih hl hrest hlt (round + 1) hqs₁
            refine ⟨_, c', u', b', g :: done, left, by rw [hrun, hloop], hl', hp'.trans hp₁, hn',
              by rw [hqs', List.cons_append], hu', ?_⟩
            rw [List.filterMap_cons, hug, hq.message hbytes, Receiver.messages_cons, hms, hp₁]
            cases (R.handled c.pAuthProvider (g.take R.header)).isSome <;> rfl

theorem session_packets {R : Receiver} (hh : R.header ≤ sizeofSMsgBuffer) {provider : Bool}
    {chunks qs : List (List UInt8)} (hqs : ∀ q ∈ qs, R.WellFormed provider q)
    {c : NetCommunicator} {u : List UInt8} {b : SMsgBuffer} (h : Live c u b)
    (hp : c.pAuthProvider = provider) (hn : R.next u = none)
    (hu : u ++ chunks.flatten = qs.flatten) {fuel : ℕ}
    (hf : (u ++ chunks.flatten).length < fuel) (i : ℕ) :
    ∃ rounds c' b',
      session (recvAndProcMsg R) (fun _ _ => .none) fuel i c chunks = (rounds, some c') ∧
      Live c' [] b' ∧ rounds.filterMap Round.handled = R.messages provider qs := by
  induction chunks generalizing qs c u b i with
  | nil =>
      rw [List.flatten_nil, List.append_nil] at hu
      cases qs with
      | nil =>
          subst hu
          exact ⟨[], c, b, rfl, h, rfl⟩
      | cons q qs =>
          rw [hu, List.flatten_cons, (hqs q List.mem_cons_self).frame.next] at hn
          cases hn
  | cons chunk chunks ih =>
      rw [List.flatten_cons, ← List.append_assoc] at hu hf
      have hlt : (u ++ chunk).length < fuel := by
        rw [List.length_append] at hf
        omega
      obtain ⟨rounds, c₁, u₁, b₁, done, rest, hrun, hl, hp₁, hn₁, rfl, hu₁, hms⟩ :=
        recvLoop_packets hh hqs (h.arrive chunk) hp hu hlt 0
      have hf₁ : (u₁ ++ chunks.flatten).length < fuel := by
        have hlen := congrArg List.length hu
        rw [List.flatten_append, ← hu₁] at hlen
        simp only [List.length_append] at hlen hf ⊢
        omega
      obtain ⟨more, c', b', hses, hl', hms'⟩ :=
        ih (fun q hq => hqs q (List.mem_append_right _ hq)) hl hp₁ hn₁ hu₁ hf₁ (i + 1)
      refine ⟨rounds ++ more, c', b', ?_, hl', ?_⟩
      · rw [session, (h.arrive chunk).recvAndProcMsg, hrun]
        simp only [hses]
      · rw [List.filterMap_append, hms, hms', Receiver.messages, Receiver.messages,
          Receiver.messages, List.filter_append]

/-- A PLSS packet: `packet_len` is its whole length, a `LoginResult` has the
length of the struct, other types may have any other. -/
structure PLSSPacket where
  bytes : List UInt8
  packet_len : wordAt bytes 0 = bytes.length
  header_le : plssHeader.size ≤ bytes.length
  le_buffer : bytes.length ≤ sizeofSMsgBuffer
  loginResult_len : wordAt bytes 2 = 0xD601 → bytes.length = loginResult.size

def PLSSPacket.isLoginResult (p : PLSSPacket) : Bool := wordAt p.bytes 2 = 0xD601

/-- A middleware packet: an `'s'` packet of the size of `Response`. -/
structure MiddlewarePacket where
  bytes : List UInt8
  head : bytes.getD 0 0 = 0x73
  size : bytes.length = response.size

theorem plssReceiver_header : plssReceiver.header = plssHeader.size := rfl

theorem plssReceiver_announced {q : List UInt8} (h : plssHeader.size ≤ q.length) :
    plssReceiver.announced q = some (wordAt q 0) := by
  have hword : wordAt (q.take plssHeader.size) 0 = wordAt q 0 := wordAt_take q (by decide)
  rw [Framing.announced, plssReceiver_header, if_pos h]
  exact congrArg some hword

theorem plssReceiver_handled (provider : Bool) (q : List UInt8) :
    plssReceiver.handled provider (q.take plssHeader.size) =
      if wordAt q 2 = 0xD601 then some loginResult.size else none := by
  have hword : wordAt (q.take plssHeader.size) 2 = wordAt q 2 := wordAt_take q (by decide)
  rw [← hword]
  rfl

theorem PLSSPacket.wellFormed (p : PLSSPacket) (provider : Bool) :
    plssReceiver.WellFormed provider p.bytes where
  frame := by rw [Framing.IsFrame, plssReceiver_announced p.header_le, p.packet_len]
  pos := lt_of_lt_of_le plssReceiver.header_pos p.header_le
  le_buffer := p.le_buffer
  handled size h := by
    rw [plssReceiver_header, plssReceiver_handled] at h
    split at h
    · rename_i htype
      exact (Option.some.inj h).symm.trans (p.loginResult_len htype).symm
    · cases h

theorem MiddlewarePacket.head_take (p : MiddlewarePacket) :
    (p.bytes.take middlewareReceiver.header).getD 0 0 = 0x73 := by
  rw [← p.head]
  cases p.bytes <;> rfl

theorem MiddlewarePacket.handled (p : MiddlewarePacket) (provider : Bool) :
    middlewareReceiver.handled provider (p.bytes.take middlewareReceiver.header) =
      if provider then some response.size else none := if_pos p.head_take

theorem MiddlewarePacket.wellFormed (p : MiddlewarePacket) (provider : Bool) :
    middlewareReceiver.WellFormed provider p.bytes where
  frame := by
    have hle : middlewareReceiver.header ≤ p.bytes.length := by
      rw [p.size]
      decide
    rw [Framing.IsFrame, Framing.announced, if_pos hle, p.size]
    exact if_pos p.head_take
  pos := by
    rw [p.size]
    decide
  le_buffer := p.size.le
  handled size h := by
    rw [p.handled, p.size.symm] at h
    split at h
    · exact (Option.some.inj h).symm
    · cases h

theorem PLSSPacket.messages (ps : List PLSSPacket) (provider : Bool) :
    plssReceiver.messages provider (ps.map PLSSPacket.bytes) =
      (ps.filter PLSSPacket.isLoginResult).map PLSSPacket.bytes := by
  rw [Receiver.messages, List.filter_map]
  congr 1
  apply List.filter_congr
  intro p _
  rw [Function.comp_apply, plssReceiver_header, plssReceiver_handled, PLSSPacket.isLoginResult]
  split <;> simp_all

theorem MiddlewarePacket.messages (ps : List MiddlewarePacket) (provider : Bool) :
    middlewareReceiver.messages provider (ps.map MiddlewarePacket.bytes) =
      if provider then ps.map MiddlewarePacket.bytes else [] := by
  rw [Receiver.messages, List.filter_map]
  have hp : ∀ p : MiddlewarePacket, (middlewareReceiver.handled provider
      (p.bytes.take middlewareReceiver.header)).isSome = provider := by
    intro p
    rw [p.handled]
    cases provider <;> rfl
  simp only [Function.comp_def, hp]
  cases provider <;> simp

/-- Every way of cutting a stream of packets into chunks hands each packet that
has a handler to it once, in order, byte for byte, and leaves nothing unread. -/
theorem packets_handled_in_order (c : NetCommunicator) (b : SMsgBuffer) (h : Live c [] b)
    (chunks : List (List UInt8)) (fuel : ℕ) (hf : chunks.flatten.length < fuel) :
    (∀ ps : List PLSSPacket, chunks.flatten = (ps.map PLSSPacket.bytes).flatten →
      ∃ rounds c', session PLSSServerCommunicator.recvAndProcMsg (fun _ _ => .none) fuel 0 c chunks =
          (rounds, some c') ∧
        rounds.filterMap Round.handled =
          (ps.filter PLSSPacket.isLoginResult).map PLSSPacket.bytes ∧
        c'.fionread = 0) ∧
    (∀ ps : List MiddlewarePacket, chunks.flatten = (ps.map MiddlewarePacket.bytes).flatten →
      ∃ rounds c',
        session MiddlewareServerCommunicator.recvAndProcMsg (fun _ _ => .none) fuel 0 c chunks =
          (rounds, some c') ∧
        rounds.filterMap Round.handled =
          (if c.pAuthProvider then ps.map MiddlewarePacket.bytes else []) ∧
        c'.fionread = 0) := by
  constructor
  · intro ps hps
    have hqs : ∀ q ∈ ps.map PLSSPacket.bytes, plssReceiver.WellFormed c.pAuthProvider q :=
      List.forall_mem_map.mpr fun p _ => p.wellFormed _
    obtain ⟨rounds, c', b', hrun, hl, hms⟩ :=
      session_packets (by decide) hqs h rfl (next_nil _) hps hf 0
    exact ⟨rounds, c', hrun, hms.trans (PLSSPacket.messages ps _), hl.fionread⟩
  · intro ps hps
    have hqs : ∀ q ∈ ps.map MiddlewarePacket.bytes,
        middlewareReceiver.WellFormed c.pAuthProvider q :=
      List.forall_mem_map.mpr fun p _ => p.wellFormed _
    obtain ⟨rounds, c', b', hrun, hl, hms⟩ :=
      session_packets (by decide) hqs h rfl (next_nil _) hps hf 0
    exact ⟨rounds, c', hrun, hms.trans (MiddlewarePacket.messages ps _), hl.fionread⟩

/-- A `LoginResult` behind a packet of another type, cut in its header. -/
theorem packets_handled_in_order_cut :
    ∃ rounds c', session PLSSServerCommunicator.recvAndProcMsg (fun _ _ => .none) 36 0
        (.readyWith []) [[5, 0, 1, 0, 7, 30, 0], 0x01 :: 0xD6 :: List.replicate 26 9] =
          (rounds, some c') ∧
      rounds.filterMap Round.handled = [30 :: 0 :: 0x01 :: 0xD6 :: List.replicate 26 9] ∧
      c'.fionread = 0 := by
  obtain ⟨rounds, c', hrun, hms, hall⟩ :=
    (packets_handled_in_order _ _ (Live.readyWith [])
      [[5, 0, 1, 0, 7, 30, 0], 0x01 :: 0xD6 :: List.replicate 26 9] 36 (by decide)).1
      [⟨[5, 0, 1, 0, 7], by decide, by decide, by decide, by decide⟩,
        ⟨30 :: 0 :: 0x01 :: 0xD6 :: List.replicate 26 9, by decide, by decide, by decide,
          by decide⟩]
      (by decide)
  exact ⟨rounds, c', hrun, hms.trans (by decide), hall⟩

end TestCodes.AuthProvider
