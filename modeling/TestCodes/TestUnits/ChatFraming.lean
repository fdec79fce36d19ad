import TestCodes.TestUnits.ChatRoom

/-! The characters on the sockets: what a session has read is what it has said, and what is written
to a session is read back, by anyone who reads as the server does, as the messages that it was
given. -/
namespace TestCodes.TestUnits

open Machine

def chatFraming : Framing Int8 where
  header := headerLength
  header_pos := by decide
  size := fun header =>
    if headerValue header ≤ maxBodyLength then some (headerLength + headerValue header) else none

namespace ChatMessage

/-- The header has the length of the body. -/
def Announced (m : ChatMessage) : Prop := headerValue m.data = m.bodyLength

theorem text_length (m : ChatMessage) : m.text.length = m.length := by
  have hfits := m.fits
  rw [text, List.length_take, m.sizeof_data, length]
  omega

theorem text_take (m : ChatMessage) : m.text.take headerLength = m.data.take headerLength := by
  rw [text, List.take_take, length, Nat.min_eq_left (Nat.le_add_right _ _)]

theorem headerValue_take (xs : List Int8) :
    headerValue (xs.take headerLength) = headerValue xs := by
  rw [headerValue, List.take_take, Nat.min_self, headerValue]

theorem Announced.isFrame {m : ChatMessage} (h : m.Announced) : chatFraming.IsFrame m.text := by
  have hvalue : headerValue (m.text.take headerLength) = m.bodyLength := by
    rw [text_take, headerValue_take, h]
  have hlength : headerLength ≤ m.text.length := by
    rw [text_length]
    exact Nat.le_add_right _ _
  have hannounced : chatFraming.announced m.text = chatFraming.size (m.text.take headerLength) :=
    if_pos hlength
  rw [Framing.IsFrame, hannounced, text_length]
  change (if headerValue (m.text.take headerLength) ≤ maxBodyLength then _ else _) = _
  rw [hvalue, if_pos m.fits]
  rfl

theorem store_header (m : ChatMessage) {bytes : List Int8} (h : bytes.length = headerLength) :
    (m.store 0 bytes).data.take headerLength = bytes := by
  have hroom : bytes.length ≤ m.data.length := by
    rw [h, m.sizeof_data]
    exact Nat.le_add_right _ _
  have hover : overwrite m.data 0 bytes = bytes ++ m.data.drop bytes.length :=
    overwrite_append [] m.data hroom
  rw [store_data, hover, ← h, List.take_left]

theorem store_body (m : ChatMessage) {bytes : List Int8} (h : bytes.length = m.bodyLength) :
    (m.store headerLength bytes).text = m.data.take headerLength ++ bytes ∧
      (m.store headerLength bytes).data.take headerLength = m.data.take headerLength := by
  have hfits := m.fits
  have hsize := m.sizeof_data
  have hlength : (m.data.take headerLength).length = headerLength := by
    rw [List.length_take, hsize]
    omega
  have hroom : bytes.length ≤ (m.data.drop headerLength).length := by
    rw [h, List.length_drop, hsize]
    omega
  have hover := overwrite_append (m.data.take headerLength) _ hroom
  rw [List.take_append_drop, hlength] at hover
  constructor
  · rw [text, length, store_data, store_bodyLength, hover]
    apply List.take_left'
    rw [List.length_append, hlength, h]
  · rw [store_data, hover, List.append_assoc, List.take_left' hlength]

end ChatMessage

namespace ChatSession

/-- Nothing, or the header of a message that is refused or whose body has not been read. -/
def Unfinished (c : ChatSession) (rest : List Int8) : Prop :=
  rest = [] ∨ rest = c.readMsg.data.take headerLength ∧
    (maxBodyLength < headerValue rest ∨ c.readMsg.Announced)

/-- How far the reading is, of a session that has said the messages `mine`. -/
inductive Heard (c : ChatSession) (mine : List ChatMessage) : Prop
  | unstarted : c.reads = .unstarted → c.received = texts mine → Heard c mine
  | header : c.reads = .header → c.received = texts mine → Heard c mine
  | body : c.reads = .body → c.received = texts mine ++ c.readMsg.data.take headerLength →
      c.readMsg.Announced → Heard c mine
  | ended (rest : List Int8) : c.reads = .ended → c.received = texts mine ++ rest →
      c.Unfinished rest → Heard c mine

variable {c c' : ChatSession} {mine : List ChatMessage} {bytes : List Int8}

/-- What the writing does is nothing to the reading. -/
theorem Heard.writing (h : c.Heard mine) (hmsg : c'.readMsg = c.readMsg)
    (hreads : c'.reads = c.reads) (hreceived : c'.received = c.received) : c'.Heard mine := by
  cases h with
  | unstarted hu heq => exact .unstarted (hreads.trans hu) (hreceived.trans heq)
  | header hu heq => exact .header (hreads.trans hu) (hreceived.trans heq)
  | body hu heq hannounced =>
      refine .body (hreads.trans hu) ?_ (hmsg ▸ hannounced)
      rw [hreceived, hmsg, heq]
  | ended rest hu heq hrest =>
      refine .ended rest (hreads.trans hu) (hreceived.trans heq) ?_
      rw [Unfinished, hmsg]
      exact hrest

theorem Heard.received_of_header (h : c.Heard mine) (hreads : c.reads = .header) :
    c.received = texts mine := by
  cases h with
  | unstarted hu heq | header hu heq => exact heq
  | body hu | ended rest hu => rw [hreads] at hu; cases hu

theorem Heard.received_of_body (h : c.Heard mine) (hreads : c.reads = .body) :
    c.received = texts mine ++ c.readMsg.data.take headerLength ∧ c.readMsg.Announced := by
  cases h with
  | body hu heq hannounced => exact ⟨heq, hannounced⟩
  | unstarted hu | header hu | ended rest hu => rw [hreads] at hu; cases hu

theorem Heard.end_reading (h : c.Heard mine) : { c with reads := .ended }.Heard mine := by
  cases h with
  | unstarted hu heq | header hu heq =>
      exact .ended [] rfl (heq.trans (List.append_nil _).symm) (.inl rfl)
  | body hu heq hannounced => exact .ended _ rfl heq (.inr ⟨rfl, .inr hannounced⟩)
  | ended rest hu heq hrest => exact .ended rest rfl heq hrest

theorem deliver_readMsg (c : ChatSession) (msg : ChatMessage) :
    (c.deliver msg).readMsg = c.readMsg := by
  simp only [ChatSession.deliver]
  split <;> rfl

theorem deliver_received (c : ChatSession) (msg : ChatMessage) :
    (c.deliver msg).received = c.received := by
  simp only [ChatSession.deliver]
  split <;> rfl

theorem Heard.deliver (h : c.Heard mine) (msg : ChatMessage) : (c.deliver msg).Heard mine :=
  h.writing (deliver_readMsg c msg) (deliver_reads c msg) (deliver_received c msg)

theorem Heard.foldl_deliver (h : c.Heard mine) (msgs : List ChatMessage) :
    (msgs.foldl ChatSession.deliver c).Heard mine := by
  induction msgs generalizing c with
  | nil => exact h
  | cons msg msgs ih => exact ih (h.deliver msg)

end ChatSession

namespace ChatRoom
variable {ι : Type*} [DecidableEq ι]

def saidBy (r : ChatRoom ι) (i : ι) : List ChatMessage :=
  (r.said.filter (·.1 = i)).map Prod.snd

end ChatRoom

namespace ChatServer
variable {ι : Type*} [DecidableEq ι] {s t : ChatServer ι} {i j : ι}

/-- Every message has its length in its header, and every session has said what it has read. -/
structure Repeats (s : ChatServer ι) : Prop where
  announced : ∀ m ∈ s.room.msgs, m.Announced
  delivered : ∀ j, ∀ m ∈ (s.sessions j).delivered, m.Announced
  heard : ∀ j, (s.sessions j).Heard (s.room.saidBy j)

theorem repeats_new (readMsgs : ι → ChatMessage) : Repeats (new readMsgs) where
  announced := fun _ hm => absurd hm List.not_mem_nil
  delivered := fun _ _ hm => absurd hm List.not_mem_nil
  heard := fun _ => .unstarted rfl rfl

theorem Repeats.modify (h : Repeats s) (i : ι) (f : ChatSession → ChatSession)
    (hdelivered : (f (s.sessions i)).delivered = (s.sessions i).delivered)
    (hheard : (f (s.sessions i)).Heard (s.room.saidBy i)) : Repeats (s.modify i f) := by
  refine ⟨h.announced, fun j => ?_, fun j => ?_⟩
  · by_cases hji : j = i
    · rw [hji, modify_self, hdelivered]
      exact h.delivered i
    · rw [modify_other s f hji]
      exact h.delivered j
  · by_cases hji : j = i
    · rw [hji, modify_self]
      exact hheard
    · rw [modify_other s f hji]
      exact h.heard j

theorem Repeats.leave (h : Repeats s) (i : ι) : Repeats (s.leave i) :=
  ⟨h.announced, h.delivered, h.heard⟩

theorem Repeats.start (h : Repeats s) (hremembers : Remembers s)
    (hi : (s.sessions i).reads = .unstarted) : Repeats (s.start i) := by
  refine ⟨h.announced, fun j => ?_, fun j => ?_⟩
  · by_cases hji : j = i
    · rw [hji, start_self]
      change ∀ m ∈ (s.room.recentMsgs.foldl ChatSession.deliver (s.sessions i)).delivered,
        m.Announced
      rw [ChatSession.foldl_deliver_delivered, hremembers]
      intro m hm
      rcases List.mem_append.mp hm with hm | hm
      · exact h.delivered i m hm
      · exact h.announced m (List.mem_of_mem_drop hm)
    · rw [start_other s hji]
      exact h.delivered j
  · by_cases hji : j = i
    · rw [hji, start_self]
      have hheard := (h.heard i).foldl_deliver s.room.recentMsgs
      have hreads := ChatSession.foldl_deliver_reads s.room.recentMsgs (s.sessions i)
      rw [hi] at hreads
      cases hheard with
      | unstarted _ heq => exact .header rfl heq
      | header hu | body hu | ended _ hu => rw [hreads] at hu; cases hu
    · rw [start_other s hji]
      exact h.heard j

theorem modify_modify (s : ChatServer ι) (i : ι) (f g : ChatSession → ChatSession) :
    (s.modify i f).modify i g = s.modify i fun c => g (f c) := by
  rw [modify, modify_self, modify, modify, Function.update_idem]

theorem Repeats.handleReadHeader (h : Repeats s) {bytes : List Int8}
    (hi : (s.sessions i).reads = .header) (hbytes : bytes.length = headerLength) :
    Repeats (s.handleReadHeader i bytes) := by
  have hreceived : (s.sessions i).received ++ bytes = ChatSession.texts (s.room.saidBy i) ++
      ((s.sessions i).readMsg.store 0 bytes).data.take headerLength := by
    rw [(h.heard i).received_of_header hi, ChatMessage.store_header _ hbytes]
  rw [ChatServer.handleReadHeader]
  simp only [modify_self, modify_modify]
  by_cases hvalue : headerValue ((s.sessions i).readMsg.store 0 bytes).data ≤ maxBodyLength
  · have hdecode : ((s.sessions i).receive 0 bytes).readMsg.decodeHeader = _ := dif_pos hvalue
    rw [hdecode, if_pos rfl]
    refine h.modify i _ ?_ ?_
    · rfl
    · exact .body rfl hreceived rfl
  · have hdecode : ((s.sessions i).receive 0 bytes).readMsg.decodeHeader = _ := dif_neg hvalue
    rw [hdecode, if_neg Bool.false_ne_true]
    refine Repeats.leave (h.modify i _ ?_ ?_) i
    · rfl
    · refine .ended _ rfl hreceived (.inr ⟨rfl, .inl ?_⟩)
      rw [ChatMessage.headerValue_take]
      exact Nat.lt_of_not_le hvalue

theorem saidBy_deliver (s : ChatServer ι) (i j : ι) (msg : ChatMessage) :
    (s.deliver i msg).room.saidBy j =
      if i = j then s.room.saidBy j ++ [msg] else s.room.saidBy j := by
  by_cases hij : i = j <;> simp [ChatServer.deliver, ChatRoom.saidBy, List.filter_append, hij]

/-- The session's socket has been read to the end of a message. -/
def Event.readsBody (i : ι) : Event ι → Bool
  | .bodyRead j _ => j = i
  | .accepted _ | .headerRead .. | .readFailed _ | .written _ | .writeFailed .. => false

theorem saidBy_step {e : Event ι} (he : s.step e = some t) (i : ι) :
    (t.room.saidBy i).length = (s.room.saidBy i).length + if e.readsBody i then 1 else 0 := by
  cases e with
  | accepted j | readFailed j | writeFailed j k =>
      obtain rfl := Option.some.inj he
      rfl
  | headerRead j bytes =>
      obtain rfl := Option.some.inj he
      rw [ChatRoom.saidBy, (handleReadHeader_room s j bytes).2]
      rfl
  | bodyRead j bytes =>
      obtain rfl := Option.some.inj he
      change (((s.modify j _).deliver j _).room.saidBy i).length = _
      simp only [saidBy_deliver, Event.readsBody, decide_eq_true_eq]
      by_cases hji : j = i
      · rw [if_pos hji, if_pos hji, List.length_append]
        rfl
      · rw [if_neg hji, if_neg hji]
        rfl
  | written j =>
      obtain ⟨msg, rest, -, rfl⟩ := handleWrite_eq he
      rfl

theorem saidBy_run {es : List (Event ι)} (hs : run step s es = some t) (i : ι) :
    (t.room.saidBy i).length = (s.room.saidBy i).length + es.countP (Event.readsBody i) := by
  induction es generalizing s with
  | nil =>
      obtain rfl := Option.some.inj hs
      rfl
  | cons e es ih =>
      rw [run_cons] at hs
      obtain ⟨u, hstep, hrun⟩ := Option.bind_eq_some_iff.mp hs
      rw [ih hrun, saidBy_step hstep i, List.countP_cons]
      omega

theorem Repeats.deliver {msg : ChatMessage} (hannounced : msg.Announced)
    (hmsgs : ∀ m ∈ s.room.msgs, m.Announced)
    (hdelivered : ∀ j, ∀ m ∈ (s.sessions j).delivered, m.Announced)
    (hothers : ∀ j, j ≠ i → (s.sessions j).Heard (s.room.saidBy j))
    (hself : (s.sessions i).received = ChatSession.texts (s.room.saidBy i ++ [msg])) :
    Repeats ((s.deliver i msg).modify i fun c => { c with reads := .header }) := by
  have hsession (j : ι) : (s.deliver i msg).sessions j = (s.sessions j).deliver msg ∨
      (s.deliver i msg).sessions j = s.sessions j := by
    by_cases hin : j ∈ s.room.participants
    · exact .inl (deliver_sessions_in s i msg hin)
    · exact .inr (deliver_sessions_out s i msg hin)
  have hall (j : ι) : ∀ m ∈ ((s.deliver i msg).sessions j).delivered, m.Announced := by
    rcases hsession j with heq | heq
    · rw [heq, ChatSession.deliver_delivered]
      intro m hm
      rcases List.mem_append.mp hm with hm | hm
      · exact hdelivered j m hm
      · rw [List.mem_singleton.mp hm]
        exact hannounced
    · rw [heq]
      exact hdelivered j
  refine ⟨?_, fun j => ?_, fun j => ?_⟩
  · change ∀ m ∈ (s.room.said ++ [(i, msg)]).map Prod.snd, m.Announced
    rw [List.map_append]
    intro m hm
    rcases List.mem_append.mp hm with hm | hm
    · exact hmsgs m hm
    · rw [List.mem_singleton.mp hm]
      exact hannounced
  · by_cases hji : j = i
    · rw [hji, modify_self]
      exact hall i
    · rw [modify_other _ _ hji]
      exact hall j
  · change ChatSession.Heard _ ((s.deliver i msg).room.saidBy j)
    rw [saidBy_deliver]
    by_cases hji : j = i
    · rw [hji, modify_self, if_pos rfl]
      refine .header rfl ?_
      rw [← hself]
      rcases hsession i with heq | heq
      · rw [heq]
        exact ChatSession.deliver_received _ _
      · rw [heq]
    · rw [modify_other _ _ hji, if_neg (Ne.symm hji)]
      rcases hsession j with heq | heq
      · rw [heq]
        exact (hothers j hji).deliver msg
      · rw [heq]
        exact hothers j hji

theorem Repeats.handleReadBody (h : Repeats s) {bytes : List Int8}
    (hi : (s.sessions i).reads = .body)
    (hbytes : bytes.length = (s.sessions i).readMsg.bodyLength) :
    Repeats (s.handleReadBody i bytes) := by
  obtain ⟨hreceived, hannounced⟩ := (h.heard i).received_of_body hi
  obtain ⟨htext, htake⟩ := ChatMessage.store_body (s.sessions i).readMsg hbytes
  rw [ChatServer.handleReadBody]
  simp only [modify_self]
  apply Repeats.deliver
  · change headerValue ((s.sessions i).readMsg.store headerLength bytes).data =
      (s.sessions i).readMsg.bodyLength
    rw [← ChatMessage.headerValue_take, htake, ChatMessage.headerValue_take]
    exact hannounced
  · exact h.announced
  · intro j
    by_cases hji : j = i
    · rw [hji, modify_self]
      exact h.delivered i
    · rw [modify_other _ _ hji]
      exact h.delivered j
  · intro j hji
    rw [modify_other _ _ hji]
    exact h.heard j
  · rw [modify_self, ChatSession.texts_append]
    change (s.sessions i).received ++ bytes = ChatSession.texts (s.room.saidBy i) ++ _
    rw [hreceived, List.append_assoc, ← htext]
    simp [ChatSession.texts, ChatSession.receive]

theorem Repeats.step (h : Repeats s) (hremembers : Remembers s) {e : Event ι}
    (hpending : s.Pending e) (he : s.step e = some t) : Repeats t := by
  cases e with
  | accepted i =>
      obtain rfl := Option.some.inj he
      exact h.start hremembers hpending
  | headerRead i bytes =>
      obtain rfl := Option.some.inj he
      exact h.handleReadHeader hpending.1 hpending.2
  | bodyRead i bytes =>
      obtain rfl := Option.some.inj he
      exact h.handleReadBody hpending.1 hpending.2
  | readFailed i =>
      obtain rfl := Option.some.inj he
      exact (h.modify i _ rfl (h.heard i).end_reading).leave i
  | written i =>
      obtain ⟨msg, rest, -, rfl⟩ := handleWrite_eq he
      exact h.modify i _ rfl ((h.heard i).writing rfl rfl rfl)
  | writeFailed i k =>
      obtain rfl := Option.some.inj he
      exact (h.modify i _ rfl ((h.heard i).writing rfl rfl rfl)).leave i

/-- Session by session: every message that was read to its end was said, what was read is what was
said, but for a header whose message has not been read to its end or is refused, and whoever reads
what is delivered as the server reads finds the messages that were delivered. -/
theorem repeats_what_it_reads (readMsgs : ι → ChatMessage) {es : List (Event ι)}
    (hes : Along step Pending (new readMsgs) es) (hs : run step (new readMsgs) es = some s) :
    (s.room.saidBy i).length = es.countP (Event.readsBody i) ∧
    (∃ rest, (s.sessions i).received = ChatSession.texts (s.room.saidBy i) ++ rest ∧
      ((s.sessions i).reads = .header → rest = []) ∧
      ((s.sessions i).reads = .body → rest = (s.sessions i).readMsg.data.take headerLength ∧
        (s.sessions i).readMsg.Announced) ∧
      (s.sessions i).Unfinished rest) ∧
    chatFraming.Frames (ChatSession.texts (s.sessions i).delivered)
      ((s.sessions i).delivered.map ChatMessage.text) [] := by
  have hrepeats : Repeats s ∧ Remembers s := by
    apply run_invariant (fun s => Repeats s ∧ Remembers s) ?_ ⟨repeats_new readMsgs, rfl⟩ hes hs
    exact fun _ _ _ h hpending he => ⟨h.1.step h.2 hpending he, h.2.step he⟩
  refine ⟨?_, ?_, ?_⟩
  · rw [saidBy_run hs i]
    exact Nat.zero_add _
  · cases hrepeats.1.heard i with
    | unstarted hu heq | header hu heq =>
        exact ⟨[], heq.trans (List.append_nil _).symm, fun _ => rfl,
          fun hb => absurd (hu.symm.trans hb) (by decide), .inl rfl⟩
    | body hu heq hannounced =>
        exact ⟨_, heq, fun hb => absurd (hu.symm.trans hb) (by decide),
          fun _ => ⟨rfl, hannounced⟩, .inr ⟨rfl, .inr hannounced⟩⟩
    | ended rest hu heq hrest =>
        exact ⟨rest, heq, fun hb => absurd (hu.symm.trans hb) (by decide),
          fun hb => absurd (hu.symm.trans hb) (by decide), hrest⟩
  · have hframes : ∀ f ∈ (s.sessions i).delivered.map ChatMessage.text, chatFraming.IsFrame f := by
      intro f hf
      obtain ⟨m, hm, rfl⟩ := List.mem_map.mp hf
      exact (hrepeats.1.delivered i m hm).isFrame
    have hall := Framing.frames_flatten hframes []
    rw [List.append_nil] at hall
    exact hall

theorem repeats_what_it_reads_one_letter : ∃ s, run step (new fun _ => blank) oneLetter = some s ∧
    chatFraming.Frames (ChatSession.texts (s.sessions true).delivered)
      ((s.sessions true).delivered.map ChatMessage.text) [] := by
  obtain ⟨s, hs, -⟩ := Option.map_eq_some_iff.mp oneLetter_participants
  exact ⟨s, hs, (repeats_what_it_reads (fun _ => blank) oneLetter_pending hs).2.2⟩

end ChatServer
end TestCodes.TestUnits
