import TestCodes.AuthProvider.PacketFraming

/-! What a hostile stream can do to the receive loop. The packets that decide
it are the complete ones at the positions where the receiver looks for one. -/
namespace TestCodes.AuthProvider

structure Receiver.PacketAt (R : Receiver) (stream : List UInt8) (i n : ℕ) : Prop where
  boundary : R.Boundary stream i
  announced : R.announced (stream.drop i) = some n
  complete : i + n ≤ stream.length

/-- The unread bytes start at a boundary of the stream and `w` is still to come,
unless the socket was closed. -/
structure OnStream (R : Receiver) (stream w : List UInt8) (provider : Bool)
    (c : NetCommunicator) : Prop where
  provider : c.pAuthProvider = provider
  position : Closed c ∨
    ∃ u b i, Live c u b ∧ R.Boundary stream i ∧ stream.drop i = u ++ w

section Rounds
variable {R : Receiver} {stream w : List UInt8} {provider : Bool}

theorem packetAt_of_next {u g rest : List UInt8} {i : ℕ} (hb : R.Boundary stream i)
    (hi : stream.drop i = u ++ w) (hn : R.next u = some (g, rest)) :
    R.PacketAt stream i g.length := by
  obtain ⟨-, -, ha, hle⟩ := hb.step hi hn
  exact ⟨hb, ha, hle⟩

theorem take_header_of_next {u g rest : List UInt8} {i : ℕ} (hi : stream.drop i = u ++ w)
    (hn : R.next u = some (g, rest)) :
    (stream.drop i).take R.header = u.take R.header := by
  obtain ⟨ha, -⟩ := Framing.next_eq_some_iff.mp hn
  rw [hi, List.take_append_of_le_length (Framing.header_le_of_announced ha)]

/-- What every round on a stream satisfies: `P` holds of the rounds that stop,
which read at most a header or a packet, and of those that read a packet. -/
structure RoundRule (R : Receiver) (provider : Bool) (stream : List UInt8) (P : Round → Prop) :
    Prop where
  stopped : ∀ asked got, (∀ n ∈ asked, n ≤ R.header ∨ ∃ i, R.PacketAt stream i n) →
    P ⟨false, asked, got, none⟩
  read : ∀ i n handled, R.PacketAt stream i n →
    handled.isSome = (R.handled provider ((stream.drop i).take R.header)).isSome →
    P ⟨true, [R.header, n], n, handled⟩

/-- The rule for the rounds of the loop, whatever fails. -/
theorem recvLoop_rounds {P : Round → Prop} (rule : RoundRule R provider stream P)
    (hh : R.header ≤ sizeofSMsgBuffer) (faults : ℕ → RecvFaults) (fuel round : ℕ)
    {c : NetCommunicator} (h : OnStream R stream w provider c) :
    (∀ r ∈ (recvLoop R faults fuel round c).1, P r) ∧
      ∀ c', (recvLoop R faults fuel round c).2 = some c' → OnStream R stream w provider c' := by
  induction fuel generalizing c round with
  | zero => simp [recvLoop]
  | succ fuel ih =>
      rcases h with ⟨rfl, hclosed | ⟨u, b, i, hl, hb, hi⟩⟩
      · have hstop := recvNextMsg_closed R (faults round) hclosed
        rw [recvLoop_stopped faults round (by rw [hstop]) fuel, hstop]
        simp only [List.mem_singleton, forall_eq, Option.some.injEq, forall_eq']
        exact ⟨rule.stopped _ _ (by simp), rfl, .inl hclosed⟩
      · rcases recvNextMsg_cases R (faults round) hh hl with ⟨hs, -⟩ | ⟨g, rest, hc⟩
        · rw [recvLoop_stopped faults round hs.ok fuel]
          simp only [List.mem_singleton, forall_eq, Option.some.injEq, forall_eq']
          refine ⟨rule.stopped _ _ fun n hn => ?_, hs.provider, ?_⟩
          · rcases hs.asked n hn with hle | ⟨g, rest, hnext, rfl⟩
            · exact .inl hle
            · exact .inr ⟨i, packetAt_of_next hb hi hnext⟩
          · rcases hs.after with ⟨-, hclosed⟩ | ⟨b', hl'⟩
            · exact .inl hclosed
            · exact .inr ⟨u, b', i, hl', hb, hi⟩
        · obtain ⟨c₁, b₁, handled, hl₁, hp₁, hm, -, hrun⟩ := recvLoop_consumed faults round hc fuel
          obtain ⟨hb₁, hi₁, -, -⟩ := hb.step hi hc.next
          obtain ⟨hrounds, hout⟩ := ih (round + 1) ⟨hp₁, .inr ⟨rest, b₁, _, hl₁, hb₁, hi₁⟩⟩
          rw [hrun]
          refine ⟨List.forall_mem_cons.mpr ⟨?_, hrounds⟩, hout⟩
          apply rule.read i g.length handled (packetAt_of_next hb hi hc.next)
          rw [hm, Option.isSome_map, take_header_of_next hi hc.next]

theorem Closed.arrive {c : NetCommunicator} (h : Closed c) (chunk : List UInt8) :
    Closed (c.arrive chunk) :=
  ⟨h.ready, h.buffer, by simp [NetCommunicator.arrive, h.socket]⟩

theorem OnStream.arrive {c : NetCommunicator} {chunk : List UInt8}
    (h : OnStream R stream (chunk ++ w) provider c) :
    OnStream R stream w provider (c.arrive chunk) := by
  rcases h with ⟨hp, hclosed | ⟨u, b, i, hl, hb, hi⟩⟩
  · exact ⟨hp, .inl (hclosed.arrive chunk)⟩
  · exact ⟨hp, .inr ⟨_, b, i, hl.arrive chunk, hb, by rw [hi, List.append_assoc]⟩⟩

theorem OnStream.recvAndProcMsg {c : NetCommunicator} (h : OnStream R stream w provider c)
    (faults : ℕ → RecvFaults) (fuel : ℕ) :
    recvAndProcMsg R faults fuel c = recvLoop R faults fuel 0 c := by
  rcases h with ⟨-, hclosed | ⟨u, b, i, hl, -, -⟩⟩
  · rw [AuthProvider.recvAndProcMsg, if_neg (by simpa using hclosed.buffer)]
  · exact hl.recvAndProcMsg R faults fuel

theorem session_rounds {P : Round → Prop} (rule : RoundRule R provider stream P)
    (hh : R.header ≤ sizeofSMsgBuffer) (faults : ℕ → ℕ → RecvFaults) (fuel i : ℕ)
    {chunks : List (List UInt8)} {c : NetCommunicator}
    (h : OnStream R stream chunks.flatten provider c) :
    ∀ r ∈ (session (recvAndProcMsg R) faults fuel i c chunks).1, P r := by
  induction chunks generalizing c i with
  | nil => simp [session]
  | cons chunk chunks ih =>
      obtain ⟨hrounds, hout⟩ := recvLoop_rounds rule hh (faults i) fuel 0 h.arrive
      rw [← h.arrive.recvAndProcMsg] at hrounds hout
      unfold session
      split
      · rename_i hrun
        rw [hrun] at hrounds
        exact hrounds
      · rename_i hrun
        rw [hrun] at hrounds hout
        intro r hr
        rcases List.mem_append.mp hr with hr | hr
        · exact hrounds r hr
        · exact ih (i + 1) (hout _ rfl) r hr

theorem Live.onStream {c : NetCommunicator} {u : List UInt8} {b : SMsgBuffer} (h : Live c u b)
    (w : List UInt8) : OnStream R (u ++ w) w c.pAuthProvider c :=
  ⟨rfl, .inr ⟨u, b, 0, h, .start, rfl⟩⟩

end Rounds

section Reach
variable {R : Receiver} {w Z g rest : List UInt8} {c : NetCommunicator}

structure Round.Reads (R : Receiver) (provider : Bool) (Z g : List UInt8) (r : Round) : Prop where
  ok : r.ok = true
  asked : r.asked = [R.header, g.length]
  got : r.got = g.length
  handled : r.handled.isSome = (R.handled provider (Z.take R.header)).isSome

/-- Without failures the loop gets as far as the packets that are complete: it
comes to the packet `g`, or stops in front of one that leads there. -/
theorem recvLoop_reaches (hh : R.header ≤ sizeofSMsgBuffer) (hz : R.next Z = some (g, rest))
    {fs : List (List UInt8)} {u : List UInt8} {b : SMsgBuffer} (h : Live c u b)
    (hfs : R.Frames (u ++ w) fs Z) {fuel : ℕ} (hf : fs.length < fuel) (round : ℕ) :
    (∃ r ∈ (recvLoop R (fun _ => .none) fuel round c).1, r.Reads R c.pAuthProvider Z g) ∨
      ∃ rounds c' u' b' fs', recvLoop R (fun _ => .none) fuel round c = (rounds, some c') ∧
        Live c' u' b' ∧ c'.pAuthProvider = c.pAuthProvider ∧ R.next u' = none ∧
        fs'.length ≤ fs.length ∧ R.Frames (u' ++ w) fs' Z := by
  induction fuel generalizing fs c u b round with
  | zero => cases hf
  | succ fuel ih =>
      rcases recvNextMsg_cases R .none hh h with ⟨hs, hnone⟩ | ⟨g', rest', hc⟩
      · rcases hs.after with ⟨hne, -⟩ | ⟨b', hl⟩
        · exact absurd rfl hne
        · exact .inr ⟨_, _, u, b', fs, recvLoop_stopped (fun _ => .none) round hs.ok fuel, hl,
            hs.provider, hnone.resolve_left (absurd rfl), le_rfl, hfs⟩
      · obtain ⟨c₁, b₁, handled, hl₁, hp₁, rfl, -, hrun⟩ :=
          recvLoop_consumed (fun _ => .none) round hc fuel
        have hnext := Framing.next_append hc.next w
        rw [hrun]
        cases hfs with
        | nil =>
            rw [hnext] at hz
            obtain ⟨rfl, -⟩ := Prod.mk.inj (Option.some.inj hz)
            refine .inl ⟨_, List.mem_cons_self, rfl, rfl, rfl, ?_⟩
            obtain ⟨ha, -⟩ := Framing.next_eq_some_iff.mp hc.next
            rw [List.take_append_of_le_length (Framing.header_le_of_announced ha)]
            exact Option.isSome_map
        | @cons _ f rest'' _ fs hn hfs =>
            rw [hnext] at hn
            obtain ⟨rfl, rfl⟩ := Prod.mk.inj (Option.some.inj hn)
            rw [List.length_cons] at hf
            rcases ih hl₁ hfs (by omega) (round + 1) with
              ⟨r, hr, hreads⟩ | ⟨rounds, c', u', b', fs', hloop, hl', hp', hn', hlen, hfs'⟩
            · exact .inl ⟨r, List.mem_cons_of_mem _ hr, by rw [← hp₁]; exact hreads⟩
            · refine .inr ⟨_, c', u', b', fs', by rw [hloop], hl', hp'.trans hp₁, hn', ?_, hfs'⟩
              rw [List.length_cons]
              omega

theorem session_reaches (hh : R.header ≤ sizeofSMsgBuffer) (hz : R.next Z = some (g, rest))
    {chunks fs : List (List UInt8)} {u : List UInt8} {b : SMsgBuffer} (h : Live c u b)
    (hn : R.next u = none) (hfs : R.Frames (u ++ chunks.flatten) fs Z) {fuel : ℕ}
    (hf : fs.length < fuel) (i : ℕ) :
    ∃ r ∈ (session (recvAndProcMsg R) (fun _ _ => .none) fuel i c chunks).1,
      r.Reads R c.pAuthProvider Z g := by
  induction chunks generalizing fs c u b i with
  | nil =>
      rw [List.flatten_nil, List.append_nil] at hfs
      exact absurd hn (hfs.next_ne_none hz)
  | cons chunk chunks ih =>
      rw [List.flatten_cons, ← List.append_assoc] at hfs
      unfold session
      rw [(h.arrive chunk).recvAndProcMsg]
      rcases recvLoop_reaches hh hz (h.arrive chunk) hfs hf 0 with
        ⟨r, hr, hreads⟩ | ⟨rounds, c', u', b', fs', hloop, hl', hp', hn', hlen, hfs'⟩
      · refine ⟨r, ?_, hreads⟩
        split
        · rename_i hrun
          rw [hrun] at hr
          exact hr
        · rename_i hrun
          rw [hrun] at hr
          exact List.mem_append_left _ hr
      · obtain ⟨r, hr, hreads⟩ := ih hl' hn' hfs' (by omega) (i + 1)
        rw [hloop]
        refine ⟨r, List.mem_append_right _ hr, ?_⟩
        rw [hp'] at hreads
        exact hreads

theorem Receiver.PacketAt.next {stream : List UInt8} {i n : ℕ} (h : R.PacketAt stream i n) :
    R.next (stream.drop i) = some ((stream.drop i).take n, stream.drop (i + n)) ∧
      ((stream.drop i).take n).length = n := by
  have hlen : ((stream.drop i).take n).length = n := by
    have := h.complete
    rw [List.length_take, List.length_drop]
    omega
  refine ⟨Framing.next_eq_some_iff.mpr ⟨by rw [hlen]; exact h.announced, ?_⟩, hlen⟩
  rw [← List.drop_drop, List.take_append_drop]

/-- Every packet of the stream is read in some session, if nothing fails. -/
theorem Receiver.PacketAt.read {stream : List UInt8} {i n : ℕ} (h : R.PacketAt stream i n)
    (hh : R.header ≤ sizeofSMsgBuffer) {b : SMsgBuffer} (hl : Live c [] b)
    {chunks : List (List UInt8)} (hs : chunks.flatten = stream) :
    ∃ fuel, ∃ r ∈ (session (recvAndProcMsg R) (fun _ _ => .none) fuel 0 c chunks).1,
      r.asked = [R.header, n] ∧ r.got = n ∧
        r.handled.isSome = (R.handled c.pAuthProvider ((stream.drop i).take R.header)).isSome := by
  obtain ⟨fs, hfs⟩ := h.boundary.frames
  obtain ⟨hnext, hlen⟩ := h.next
  subst hs
  obtain ⟨r, hr, hreads⟩ :=
    session_reaches hh hnext hl (next_nil R) hfs (Nat.lt_succ_self fs.length) 0
  exact ⟨_, r, hr, by rw [hreads.asked, hlen], by rw [hreads.got, hlen], hreads.handled⟩

end Reach

theorem plssReceiver_handled_isSome (provider : Bool) (q : List UInt8) :
    (plssReceiver.handled provider (q.take plssReceiver.header)).isSome ↔
      wordAt q 2 = 0xD601 := by
  rw [plssReceiver_header, plssReceiver_handled]
  split <;> simp_all

/-- What `RecvNextMsg` asks for fits the buffer, and a `LoginResult` is handed
over only when the message supplied all of it. -/
structure Round.Safe (r : Round) : Prop where
  asked : ∀ n ∈ r.asked, n ≤ sizeofSMsgBuffer
  handled : r.handled.isSome → (loginResult.size : Int) ≤ r.got

/-- A packet of `n` bytes the buffer takes, and no shorter than its struct. -/
structure PacketFits (q : List UInt8) (n : ℕ) : Prop where
  le_buffer : n ≤ sizeofSMsgBuffer
  loginResult_len : wordAt q 2 = 0xD601 → loginResult.size ≤ n

theorem roundRule_safe {provider : Bool} {stream : List UInt8}
    (fits : ∀ i n, plssReceiver.PacketAt stream i n → PacketFits (stream.drop i) n) :
    RoundRule plssReceiver provider stream Round.Safe where
  stopped asked got h := by
    refine ⟨fun n hn => ?_, by simp⟩
    rcases h n hn with hle | ⟨i, hat⟩
    · exact hle.trans (by decide)
    · exact (fits i n hat).le_buffer
  read i n handled hat hsome := by
    have hfit := fits i n hat
    constructor
    · intro k hk
      simp only [List.mem_cons, List.not_mem_nil, or_false] at hk
      rcases hk with rfl | rfl
      · decide
      · exact hfit.le_buffer
    · intro h
      rw [hsome, plssReceiver_handled_isSome] at h
      exact Int.ofNat_le.mpr (hfit.loginResult_len h)

/-- The PLSS reads stay inside the buffer and `Handler(LoginResult&)` sees only
bytes of its own message exactly on the streams whose packets announce at most
the size of the buffer and, as a `LoginResult`, at least the size of the struct. -/
theorem plss_reads_safe_iff (c : NetCommunicator) (b : SMsgBuffer) (h : Live c [] b)
    (chunks : List (List UInt8)) :
    (∀ (faults : ℕ → ℕ → RecvFaults) (fuel : ℕ),
      ∀ r ∈ (session PLSSServerCommunicator.recvAndProcMsg faults fuel 0 c chunks).1, r.Safe) ↔
      ∀ i n, plssReceiver.PacketAt chunks.flatten i n →
        PacketFits (chunks.flatten.drop i) n := by
  constructor
  · intro hsafe i n hat
    obtain ⟨fuel, r, hr, hasked, hgot, hhandled⟩ := hat.read (by decide) h rfl
    obtain ⟨hbounds, hstruct⟩ := hsafe _ fuel r hr
    refine ⟨hbounds n (by simp [hasked]), fun htype => ?_⟩
    rw [hhandled, plssReceiver_handled_isSome, hgot] at hstruct
    exact Int.ofNat_le.mp (hstruct htype)
  · intro fits faults fuel
    exact session_rounds (roundRule_safe fits) (by decide) faults fuel 0 (h.onStream _)

def loginResultPacket : List UInt8 := 30 :: 0 :: 0x01 :: 0xD6 :: List.replicate 26 9

theorem loginResultPacket_only {i n : ℕ} (h : plssReceiver.PacketAt loginResultPacket i n) :
    i = 0 ∧ n = 30 := by
  have hfirst : plssReceiver.announced (loginResultPacket.drop 0) = some 30 := by decide
  have hlast : plssReceiver.announced (loginResultPacket.drop 30) = none := by decide
  have hb : ∀ {j}, plssReceiver.Boundary loginResultPacket j → j = 0 ∨ j = 30 := by
    intro j hj
    induction hj with
    | start => exact .inl rfl
    | next _ ha _ ih =>
        rcases ih with rfl | rfl
        · rw [hfirst] at ha
          exact .inr (by simpa using ha.symm)
        · rw [hlast] at ha
          cases ha
  have ha := h.announced
  rcases hb h.boundary with rfl | rfl
  · rw [hfirst] at ha
    exact ⟨rfl, by simpa using ha.symm⟩
  · rw [hlast] at ha
    cases ha

/-- A `LoginResult` in three parts. -/
theorem plss_reads_safe_iff_whole : Live (.readyWith []) [] .zeroed ∧
    ∀ (faults : ℕ → ℕ → RecvFaults) (fuel : ℕ),
      ∀ r ∈ (session PLSSServerCommunicator.recvAndProcMsg faults fuel 0 (.readyWith [])
        [[30, 0], 0x01 :: 0xD6 :: List.replicate 20 9, List.replicate 6 9]).1, r.Safe := by
  refine ⟨Live.readyWith [], (plss_reads_safe_iff _ _ (Live.readyWith []) _).mpr ?_⟩
  intro i n h
  obtain ⟨rfl, rfl⟩ := loginResultPacket_only h
  exact ⟨by decide, by decide⟩

/-- A header that announces sixty-five bytes overruns the buffer, and one that
announces only itself is handled as a `LoginResult`. -/
theorem plss_reads_unsafe :
    ¬ (∀ (c : NetCommunicator) (b : SMsgBuffer), Live c [] b → ∀ chunks faults fuel,
      ∀ r ∈ (session PLSSServerCommunicator.recvAndProcMsg faults fuel 0 c chunks).1,
        ∀ n ∈ r.asked, n ≤ sizeofSMsgBuffer) ∧
    ¬ (∀ (c : NetCommunicator) (b : SMsgBuffer), Live c [] b → ∀ chunks faults fuel,
      ∀ r ∈ (session PLSSServerCommunicator.recvAndProcMsg faults fuel 0 c chunks).1,
        r.handled.isSome → (loginResult.size : Int) ≤ r.got) := by
  constructor
  · intro h
    have hr := h _ _ (Live.readyWith []) [65 :: List.replicate 64 0] (fun _ _ => .none) 2
    exact absurd hr (by decide)
  · intro h
    have hr := h _ _ (Live.readyWith []) [[4, 0, 0x01, 0xD6]] (fun _ _ => .none) 2
    exact absurd hr (by decide)

section Ends
variable {R : Receiver}

theorem recvLoop_returns {stream w : List UInt8}
    (hne : ∀ i, ¬ R.PacketAt stream i 0) (hh : R.header ≤ sizeofSMsgBuffer)
    (faults : ℕ → RecvFaults) {c : NetCommunicator} {u : List UInt8} {b : SMsgBuffer} {i : ℕ}
    (h : Live c u b) (hb : R.Boundary stream i) (hi : stream.drop i = u ++ w) {fuel : ℕ}
    (hf : u.length < fuel) (round : ℕ) : (recvLoop R faults fuel round c).2.isSome := by
  induction fuel generalizing c u b i round with
  | zero => cases hf
  | succ fuel ih =>
      rcases recvNextMsg_cases R (faults round) hh h with ⟨hs, -⟩ | ⟨g, rest, hc⟩
      · rw [recvLoop_stopped faults round hs.ok fuel]
        rfl
      · obtain ⟨c₁, b₁, handled, hl₁, -, -, -, hrun⟩ := recvLoop_consumed faults round hc fuel
        obtain ⟨hb₁, hi₁, -, -⟩ := hb.step hi hc.next
        have hpos : 0 < g.length := by
          by_contra hzero
          have hat := packetAt_of_next hb hi hc.next
          rw [Nat.eq_zero_of_not_pos hzero] at hat
          exact hne i hat
        have hlen := congrArg List.length (Framing.next_eq_some_iff.mp hc.next).2
        rw [List.length_append] at hlen
        rw [hrun]
        exact ih hl₁ hb₁ hi₁ (by omega) (round + 1)

/-- At an empty packet `RecvNextMsg` returns true for ever. -/
theorem recvLoop_stuck (hh : R.header ≤ sizeofSMsgBuffer) {Z : List UInt8}
    (hz : R.next Z = some ([], Z)) {fs : List (List UInt8)} {c : NetCommunicator} {u : List UInt8}
    {b : SMsgBuffer} (h : Live c u b) (hfs : R.Frames u fs Z) (fuel round : ℕ) :
    (recvLoop R (fun _ => .none) fuel round c).2 = none := by
  induction fuel generalizing fs c u b round with
  | zero => rfl
  | succ fuel ih =>
      rcases recvNextMsg_cases R .none hh h with ⟨-, hnone⟩ | ⟨g, rest, hc⟩
      · exact absurd (hnone.resolve_left (absurd rfl)) (hfs.next_ne_none hz)
      · obtain ⟨c₁, b₁, handled, hl₁, -, -, -, hrun⟩ :=
          recvLoop_consumed (fun _ => .none) round hc fuel
        rw [hrun]
        have hnext := hc.next
        cases hfs with
        | nil =>
            rw [hz] at hnext
            obtain ⟨-, rfl⟩ := Prod.mk.inj (Option.some.inj hnext)
            exact ih hl₁ (.nil _) (round + 1)
        | cons hn hfs =>
            rw [hn] at hnext
            obtain ⟨-, rfl⟩ := Prod.mk.inj (Option.some.inj hnext)
            exact ih hl₁ hfs (round + 1)

end Ends

theorem roundRule_progress {R : Receiver} {provider : Bool} {stream : List UInt8}
    (hne : ∀ i, ¬ R.PacketAt stream i 0) :
    RoundRule R provider stream fun r => r.ok = true → 1 ≤ r.got where
  stopped asked got _ hok := by cases hok
  read i n handled hat _ _ := by
    have hpos : n ≠ 0 := by
      rintro rfl
      exact hne i hat
    exact Int.ofNat_le.mpr (Nat.one_le_iff_ne_zero.mpr hpos)

/-- The PLSS loop returns, and every message it reads takes a byte off the
socket, exactly on the contents without an empty packet. -/
theorem plss_loop_ends_iff (c : NetCommunicator) (u : List UInt8) (b : SMsgBuffer)
    (h : Live c u b) :
    ((∀ faults, ∃ fuel, (PLSSServerCommunicator.recvAndProcMsg faults fuel c).2.isSome) ↔
      ∀ i, ¬ plssReceiver.PacketAt u i 0) ∧
    ((∀ faults fuel, ∀ r ∈ (PLSSServerCommunicator.recvAndProcMsg faults fuel c).1,
      r.ok = true → 1 ≤ r.got) ↔ ∀ i, ¬ plssReceiver.PacketAt u i 0) := by
  have hrun : ∀ faults fuel, PLSSServerCommunicator.recvAndProcMsg faults fuel c =
      recvLoop plssReceiver faults fuel 0 c := h.recvAndProcMsg plssReceiver
  simp only [hrun]
  refine ⟨⟨fun hends i hat => ?_, fun hne faults => ?_⟩, ⟨fun hprog i hat => ?_, fun hne => ?_⟩⟩
  · obtain ⟨fs, hfs⟩ := hat.boundary.frames
    obtain ⟨hnext, -⟩ := hat.next
    obtain ⟨fuel, hsome⟩ := hends fun _ => .none
    rw [recvLoop_stuck (by decide) hnext h hfs fuel 0] at hsome
    cases hsome
  · exact ⟨u.length + 1, recvLoop_returns hne (by decide) faults h .start
      (List.append_nil u).symm (Nat.lt_succ_self _) 0⟩
  · obtain ⟨fs, hfs⟩ := hat.boundary.frames
    obtain ⟨hnext, hlen⟩ := hat.next
    have hfs₀ : plssReceiver.Frames (u ++ []) fs (u.drop i) := by rwa [List.append_nil]
    rcases recvLoop_reaches (by decide) hnext h hfs₀ (Nat.lt_succ_self _) 0 with
      ⟨r, hr, hreads⟩ | ⟨_, _, _, _, _, _, _, _, hnone, _, hfs'⟩
    · have hgot := hprog _ _ r hr hreads.ok
      rw [hreads.got, hlen] at hgot
      cases hgot
    · rw [List.append_nil] at hfs'
      exact hfs'.next_ne_none hnext hnone
  · intro faults fuel
    rw [← u.append_nil] at hne
    exact (recvLoop_rounds (roundRule_progress hne) (by decide) faults fuel 0 (h.onStream [])).1

/-- On a `LoginResult` the loop ends. -/
theorem plss_loop_ends_iff_whole :
    Live (.readyWith loginResultPacket) loginResultPacket .zeroed ∧
      ∀ faults, ∃ fuel, (PLSSServerCommunicator.recvAndProcMsg faults fuel
        (.readyWith loginResultPacket)).2.isSome := by
  have hlive := Live.readyWith loginResultPacket
  refine ⟨hlive, (plss_loop_ends_iff _ _ _ hlive).1.mpr ?_⟩
  intro i h
  cases (loginResultPacket_only h).2

/-- A header that announces no bytes at all holds the loop for ever. -/
theorem plss_loop_spins :
    ¬ (∀ (c : NetCommunicator) (u : List UInt8) (b : SMsgBuffer), Live c u b → ∀ faults,
      ∃ fuel, (PLSSServerCommunicator.recvAndProcMsg faults fuel c).2.isSome) := by
  intro h
  obtain ⟨fuel, hsome⟩ := h _ _ _ (Live.readyWith [0, 0, 0, 0]) fun _ => .none
  rw [PLSSServerCommunicator.recvAndProcMsg, (Live.readyWith [0, 0, 0, 0]).recvAndProcMsg,
    recvLoop_stuck (by decide) rfl (Live.readyWith [0, 0, 0, 0]) (.nil _) fuel 0] at hsome
  cases hsome

end TestCodes.AuthProvider
