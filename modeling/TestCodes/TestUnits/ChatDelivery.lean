import TestCodes.Lib.Pipe
import TestCodes.TestUnits.ChatServer

/-! What the chat server writes to a socket: the messages that the room has delivered, whole and in
order, one at a time. -/
namespace TestCodes.TestUnits

open Machine

namespace ChatSession

def texts (msgs : List ChatMessage) : List Int8 := (msgs.map ChatMessage.text).flatten

theorem texts_append (xs ys : List ChatMessage) : texts (xs ++ ys) = texts xs ++ texts ys := by
  rw [texts, List.map_append, List.flatten_append, texts, texts]

/-- How far the socket is, when it has taken the messages `done`: nothing to write, the front of
the queue under way, or a write that has failed, of a session that has left the room. -/
inductive Socket (participating : Prop) (c : ChatSession) (done : List ChatMessage) : Prop
  | idle : c.writeMsgs = [] → c.writing = none → c.sent = texts done →
      Socket participating c done
  | busy {msg : ChatMessage} {rest : List ChatMessage} : c.writeMsgs = msg :: rest →
      c.writing = some msg.text → c.sent = texts done → Socket participating c done
  | broken {msg : ChatMessage} {rest : List ChatMessage} (k : ℕ) : ¬ participating →
      c.reads ≠ .unstarted → c.writeMsgs = msg :: rest → c.writing = none →
      c.sent = texts done ++ msg.text.take k → Socket participating c done

/-- The session as a pipe: what is delivered to it is promised, and what has been written whole is
taken. -/
structure Flows (participating : Prop) (c : ChatSession) (p : Pipe ChatMessage) : Prop where
  delivered : c.delivered = p.promised
  queue : c.writeMsgs = p.pending
  socket : c.Socket participating p.taken

variable {participating participating' : Prop} {c c' : ChatSession} {p : Pipe ChatMessage}

theorem flows_new (readMsg : ChatMessage) : (new readMsg).Flows participating .empty :=
  ⟨rfl, rfl, .idle rfl rfl rfl⟩

/-- What the reading does is nothing to the writing. -/
theorem Flows.reading (h : c.Flows participating p)
    (hreads : c'.reads = .unstarted → c.reads = .unstarted) (hqueue : c'.writeMsgs = c.writeMsgs)
    (hwriting : c'.writing = c.writing) (hdelivered : c'.delivered = c.delivered)
    (hsent : c'.sent = c.sent) : c'.Flows participating p := by
  refine ⟨hdelivered.trans h.delivered, hqueue.trans h.queue, ?_⟩
  cases h.socket with
  | idle hempty hnone htexts => exact .idle (hqueue ▸ hempty) (hwriting ▸ hnone) (hsent ▸ htexts)
  | busy hcons hsome htexts => exact .busy (hqueue ▸ hcons) (hwriting ▸ hsome) (hsent ▸ htexts)
  | broken k hnot hstarted hcons hnone htexts =>
      exact .broken k hnot (fun hu => hstarted (hreads hu)) (hqueue ▸ hcons) (hwriting ▸ hnone)
        (hsent ▸ htexts)

theorem Flows.mono (h : c.Flows participating p) (himp : participating' → participating) :
    c.Flows participating' p := by
  refine ⟨h.delivered, h.queue, ?_⟩
  cases h.socket with
  | idle hempty hnone htexts => exact .idle hempty hnone htexts
  | busy hcons hsome htexts => exact .busy hcons hsome htexts
  | broken k hnot hstarted hcons hnone htexts =>
      exact .broken k (fun hin => hnot (himp hin)) hstarted hcons hnone htexts

theorem Flows.start (h : c.Flows participating p) (hreads : c.reads = .unstarted) :
    c.Flows participating' p := by
  refine ⟨h.delivered, h.queue, ?_⟩
  cases h.socket with
  | idle hempty hnone htexts => exact .idle hempty hnone htexts
  | busy hcons hsome htexts => exact .busy hcons hsome htexts
  | broken k hnot hstarted => exact absurd hreads hstarted

theorem Flows.deliver (h : c.Flows participating p) (hin : participating) (msg : ChatMessage) :
    (c.deliver msg).Flows participating (p.offer [msg]) := by
  have hpromised : c.delivered ++ [msg] = (p.offer [msg]).promised := by
    rw [h.delivered]
    rfl
  have hpending : c.writeMsgs ++ [msg] = (p.offer [msg]).pending := by
    rw [h.queue]
    rfl
  cases h.socket with
  | idle hempty hnone htexts =>
      have hdeliver : c.deliver msg = { c with
          writeMsgs := [msg]
          delivered := c.delivered ++ [msg]
          writing := some msg.text } := by
        simp [ChatSession.deliver, asyncWrite, hempty]
      rw [hdeliver]
      rw [hempty] at hpending
      exact ⟨hpromised, hpending, .busy rfl rfl htexts⟩
  | @busy front rest hcons hsome htexts =>
      have hdeliver : c.deliver msg = { c with
          writeMsgs := c.writeMsgs ++ [msg]
          delivered := c.delivered ++ [msg] } := by
        simp [ChatSession.deliver, hcons]
      have hfront : c.writeMsgs ++ [msg] = front :: (rest ++ [msg]) := by
        rw [hcons]
        rfl
      rw [hdeliver]
      exact ⟨hpromised, hpending, .busy hfront hsome htexts⟩
  | broken k hnot => exact absurd hin hnot

theorem deliver_reads (c : ChatSession) (msg : ChatMessage) : (c.deliver msg).reads = c.reads := by
  simp only [ChatSession.deliver]
  split <;> rfl

theorem deliver_delivered (c : ChatSession) (msg : ChatMessage) :
    (c.deliver msg).delivered = c.delivered ++ [msg] := by
  simp only [ChatSession.deliver]
  split <;> rfl

theorem foldl_deliver_reads (msgs : List ChatMessage) (c : ChatSession) :
    (msgs.foldl ChatSession.deliver c).reads = c.reads := by
  induction msgs generalizing c with
  | nil => rfl
  | cons msg msgs ih => rw [List.foldl_cons, ih, deliver_reads]

theorem foldl_deliver_delivered (msgs : List ChatMessage) (c : ChatSession) :
    (msgs.foldl ChatSession.deliver c).delivered = c.delivered ++ msgs := by
  induction msgs generalizing c with
  | nil => exact (List.append_nil _).symm
  | cons msg msgs ih => rw [List.foldl_cons, ih, deliver_delivered, List.append_assoc]; rfl

theorem Flows.foldl_deliver (h : c.Flows participating p) (hin : participating)
    (msgs : List ChatMessage) :
    ∃ p', (msgs.foldl ChatSession.deliver c).Flows participating p' := by
  induction msgs generalizing c p with
  | nil => exact ⟨p, h⟩
  | cons msg msgs ih => exact ih (h.deliver hin msg)

theorem Flows.written (h : c.Flows participating p) (hwriting : c.writing ≠ none) :
    ∃ msg rest, c.writeMsgs = msg :: rest ∧
      ({ c with writeMsgs := rest, sent := c.sent ++ c.writing.getD [] }.asyncWrite).Flows
        participating (p.deliver 1) := by
  cases h.socket with
  | idle hempty hnone => exact absurd hnone hwriting
  | @busy msg rest hcons hsome htexts =>
      have hpending : p.pending = msg :: rest := h.queue.symm.trans hcons
      have hsent : c.sent ++ c.writing.getD [] = texts (p.deliver 1).taken := by
        rw [Pipe.deliver, texts_append, hpending, htexts, hsome]
        simp [texts]
      refine ⟨msg, rest, hcons, h.delivered, ?_, ?_⟩
      · change rest = p.pending.drop 1
        rw [hpending]
        rfl
      · cases hrest : rest with
        | nil => exact .idle rfl rfl hsent
        | cons next rest' => exact .busy rfl rfl hsent
  | broken k hnot hstarted hcons hnone => exact absurd hnone hwriting

theorem Flows.failed (h : c.Flows participating p) (hwriting : c.writing ≠ none)
    (hreads : c.reads ≠ .unstarted) (k : ℕ) :
    { c with writing := none, sent := c.sent ++ (c.writing.getD []).take k }.Flows False p := by
  cases h.socket with
  | idle hempty hnone => exact absurd hnone hwriting
  | busy hcons hsome htexts =>
      refine ⟨h.delivered, h.queue, .broken k id hreads hcons rfl ?_⟩
      rw [htexts, hsome]
      rfl
  | broken k hnot hstarted hcons hnone => exact absurd hnone hwriting

theorem Flows.sent_prefix (h : c.Flows participating p) : c.sent <+: texts c.delivered := by
  have hconserved := p.conserved
  rw [h.delivered, ← hconserved, texts_append]
  cases h.socket with
  | idle hempty hnone htexts =>
      rw [htexts]
      exact List.prefix_append _ _
  | busy hcons hsome htexts =>
      rw [htexts]
      exact List.prefix_append _ _
  | @broken msg rest k hnot hstarted hcons hnone htexts =>
      rw [htexts, List.prefix_append_right_inj, ← h.queue, hcons, texts, List.map_cons,
        List.flatten_cons]
      exact (List.take_prefix _ _).trans (List.prefix_append _ _)

end ChatSession

namespace ChatServer
variable {ι : Type*} [DecidableEq ι] {s t : ChatServer ι} {i j : ι}

/-- Every participant has started, and every session is a pipe to its socket. -/
structure Flowing (s : ChatServer ι) : Prop where
  started : ∀ j ∈ s.room.participants, (s.sessions j).reads ≠ .unstarted
  untouched : ∀ j, (s.sessions j).reads = .unstarted → (s.sessions j).delivered = []
  flows : ∀ j, ∃ p, (s.sessions j).Flows (j ∈ s.room.participants) p

omit [DecidableEq ι] in
theorem flowing_new (readMsgs : ι → ChatMessage) : Flowing (new readMsgs) where
  started := fun _ hj => absurd hj (Finset.notMem_empty _)
  untouched := fun _ _ => rfl
  flows := fun j => ⟨.empty, ChatSession.flows_new (readMsgs j)⟩

theorem modify_self (s : ChatServer ι) (i : ι) (f : ChatSession → ChatSession) :
    (s.modify i f).sessions i = f (s.sessions i) :=
  Function.update_self ..

theorem modify_other (s : ChatServer ι) (f : ChatSession → ChatSession) (h : j ≠ i) :
    (s.modify i f).sessions j = s.sessions j :=
  Function.update_of_ne h ..

theorem Flowing.reading (h : Flowing s) (i : ι) (f : ChatSession → ChatSession)
    (hreads : (f (s.sessions i)).reads = .unstarted → (s.sessions i).reads = .unstarted)
    (hqueue : (f (s.sessions i)).writeMsgs = (s.sessions i).writeMsgs)
    (hwriting : (f (s.sessions i)).writing = (s.sessions i).writing)
    (hdelivered : (f (s.sessions i)).delivered = (s.sessions i).delivered)
    (hsent : (f (s.sessions i)).sent = (s.sessions i).sent) : Flowing (s.modify i f) := by
  refine ⟨fun j hj => ?_, fun j hj => ?_, fun j => ?_⟩
  · by_cases hji : j = i
    · subst hji
      rw [modify_self]
      exact fun hu => h.started j hj (hreads hu)
    · rw [modify_other s f hji]
      exact h.started j hj
  · by_cases hji : j = i
    · subst hji
      rw [modify_self] at hj ⊢
      rw [hdelivered]
      exact h.untouched j (hreads hj)
    · rw [modify_other s f hji] at hj ⊢
      exact h.untouched j hj
  · obtain ⟨p, hp⟩ := h.flows j
    refine ⟨p, ?_⟩
    by_cases hji : j = i
    · subst hji
      rw [modify_self]
      exact hp.reading hreads hqueue hwriting hdelivered hsent
    · rw [modify_other s f hji]
      exact hp

theorem Flowing.leave (h : Flowing s) (i : ι) : Flowing (s.leave i) where
  started := fun j hj => h.started j (Finset.mem_of_mem_erase hj)
  untouched := h.untouched
  flows := fun j =>
    have ⟨p, hp⟩ := h.flows j
    ⟨p, hp.mono Finset.mem_of_mem_erase⟩

theorem deliver_sessions_in (s : ChatServer ι) (i : ι) (msg : ChatMessage)
    (hj : j ∈ s.room.participants) :
    (s.deliver i msg).sessions j = (s.sessions j).deliver msg :=
  if_pos hj

theorem deliver_sessions_out (s : ChatServer ι) (i : ι) (msg : ChatMessage)
    (hj : j ∉ s.room.participants) : (s.deliver i msg).sessions j = s.sessions j :=
  if_neg hj

theorem Flowing.deliver (h : Flowing s) (i : ι) (msg : ChatMessage) :
    Flowing (s.deliver i msg) := by
  refine ⟨fun j hj => ?_, fun j hj => ?_, fun j => ?_⟩
  · rw [deliver_sessions_in s i msg hj, ChatSession.deliver_reads]
    exact h.started j hj
  · by_cases hin : j ∈ s.room.participants
    · rw [deliver_sessions_in s i msg hin, ChatSession.deliver_reads] at hj
      exact absurd hj (h.started j hin)
    · rw [deliver_sessions_out s i msg hin] at hj ⊢
      exact h.untouched j hj
  · obtain ⟨p, hp⟩ := h.flows j
    by_cases hin : j ∈ s.room.participants
    · rw [deliver_sessions_in s i msg hin]
      exact ⟨p.offer [msg], hp.deliver hin msg⟩
    · rw [deliver_sessions_out s i msg hin]
      exact ⟨p, hp⟩

theorem start_self (s : ChatServer ι) (i : ι) : (s.start i).sessions i =
    { s.room.recentMsgs.foldl ChatSession.deliver (s.sessions i) with reads := .header } := by
  rw [start, modify_self, join, modify_self]

theorem start_other (s : ChatServer ι) (h : j ≠ i) :
    (s.start i).sessions j = s.sessions j := by
  rw [start, modify_other _ _ h, join, modify_other _ _ h]

theorem Flowing.start (h : Flowing s) (hi : (s.sessions i).reads = .unstarted) :
    Flowing (s.start i) := by
  refine ⟨fun j hj => ?_, fun j hj => ?_, fun j => ?_⟩
  · by_cases hji : j = i
    · rw [hji, start_self]
      exact Reads.noConfusion
    · rw [start_other s hji]
      exact h.started j (Finset.mem_of_mem_insert_of_ne hj hji)
  · by_cases hji : j = i
    · rw [hji, start_self] at hj
      cases hj
    · rw [start_other s hji] at hj ⊢
      exact h.untouched j hj
  · obtain ⟨p, hp⟩ := h.flows j
    by_cases hji : j = i
    · subst hji
      have hstart : (s.sessions j).Flows (j ∈ (s.start j).room.participants) p := hp.start hi
      obtain ⟨p', hp'⟩ := hstart.foldl_deliver (Finset.mem_insert_self j _) s.room.recentMsgs
      rw [start_self]
      exact ⟨p', hp'.reading (fun hu => Reads.noConfusion hu) rfl rfl rfl rfl⟩
    · rw [start_other s hji]
      exact ⟨p, hp.mono fun hj => Finset.mem_of_mem_insert_of_ne hj hji⟩

omit [DecidableEq ι] in
theorem Flowing.writing_started (h : Flowing s) (hi : (s.sessions i).writing ≠ none) :
    (s.sessions i).reads ≠ .unstarted := by
  intro hu
  obtain ⟨p, hp⟩ := h.flows i
  obtain ⟨msg, rest, hcons, -⟩ := hp.written hi
  have hconserved := p.conserved
  rw [← hp.delivered, h.untouched i hu, ← hp.queue, hcons, List.append_eq_nil_iff] at hconserved
  cases hconserved.2

theorem Flowing.handleReadHeader (h : Flowing s) (i : ι) (bytes : List Int8) :
    Flowing (s.handleReadHeader i bytes) := by
  have hreceive := h.reading i (fun c => c.receive 0 bytes) id rfl rfl rfl rfl
  rw [ChatServer.handleReadHeader]
  split
  · exact hreceive.reading i (fun c => { c with readMsg := _, reads := .body })
      (fun hu => Reads.noConfusion hu) rfl rfl rfl rfl
  · exact (hreceive.reading i (fun c => { c with readMsg := _, reads := .ended })
      (fun hu => Reads.noConfusion hu) rfl rfl rfl rfl).leave i

theorem Flowing.handleReadBody (h : Flowing s) (i : ι) (bytes : List Int8) :
    Flowing (s.handleReadBody i bytes) := by
  have hreceive := h.reading i (fun c => c.receive headerLength bytes) id rfl rfl rfl rfl
  exact (hreceive.deliver i _).reading i (fun c => { c with reads := .header })
    (fun hu => Reads.noConfusion hu) rfl rfl rfl rfl

theorem Flowing.handleWrite (h : Flowing s) (hi : (s.sessions i).writing ≠ none) :
    ∃ t, s.handleWrite i = some t ∧ Flowing t := by
  obtain ⟨p, hp⟩ := h.flows i
  obtain ⟨msg, rest, hcons, hflows⟩ := hp.written hi
  refine ⟨_, by rw [ChatServer.handleWrite, hcons], fun j hj => ?_, fun j hj => ?_, fun j => ?_⟩
  · by_cases hji : j = i
    · subst hji
      rw [modify_self]
      exact h.started j hj
    · rw [modify_other s _ hji]
      exact h.started j hj
  · by_cases hji : j = i
    · subst hji
      rw [modify_self] at hj ⊢
      exact h.untouched j hj
    · rw [modify_other s _ hji] at hj ⊢
      exact h.untouched j hj
  · by_cases hji : j = i
    · subst hji
      rw [modify_self]
      exact ⟨_, hflows⟩
    · rw [modify_other s _ hji]
      exact h.flows j

theorem Flowing.handleWriteError (h : Flowing s) (hi : (s.sessions i).writing ≠ none) (k : ℕ) :
    Flowing (s.handleWriteError i k) := by
  have hstarted := h.writing_started hi
  obtain ⟨p, hp⟩ := h.flows i
  refine ⟨fun j hj => ?_, fun j hj => ?_, fun j => ?_⟩
  · have hji : j ≠ i := Finset.ne_of_mem_erase hj
    rw [ChatServer.handleWriteError, ChatServer.leave, modify_other s _ hji]
    exact h.started j (Finset.mem_of_mem_erase hj)
  · by_cases hji : j = i
    · subst hji
      rw [ChatServer.handleWriteError, ChatServer.leave, modify_self] at hj ⊢
      exact h.untouched j hj
    · rw [ChatServer.handleWriteError, ChatServer.leave, modify_other s _ hji] at hj ⊢
      exact h.untouched j hj
  · by_cases hji : j = i
    · subst hji
      rw [ChatServer.handleWriteError, ChatServer.leave, modify_self]
      exact ⟨p, (hp.failed hi hstarted k).mono fun hj => Finset.notMem_erase j _ hj⟩
    · rw [ChatServer.handleWriteError, ChatServer.leave, modify_other s _ hji]
      obtain ⟨p', hp'⟩ := h.flows j
      exact ⟨p', hp'.mono Finset.mem_of_mem_erase⟩

theorem Flowing.step (h : Flowing s) {e : Event ι} (he : s.Pending e) :
    ∃ t, s.step e = some t ∧ Flowing t := by
  cases e with
  | accepted i => exact ⟨_, rfl, h.start he⟩
  | headerRead i bytes => exact ⟨_, rfl, h.handleReadHeader i bytes⟩
  | bodyRead i bytes => exact ⟨_, rfl, h.handleReadBody i bytes⟩
  | readFailed i =>
      exact ⟨_, rfl, (h.reading i (fun c => { c with reads := .ended })
        (fun hu => Reads.noConfusion hu) rfl rfl rfl rfl).leave i⟩
  | written i => exact h.handleWrite he
  | writeFailed i k => exact ⟨_, rfl, h.handleWriteError he k⟩

/-- Whatever the sockets do, the server never pops an empty queue, and of what is delivered to a
session its socket gets the messages whole, in order and one after the other: a participant writes
the front of its queue while there is one, and what has been written is all that was delivered
when the queue is empty. -/
theorem writes_in_order (readMsgs : ι → ChatMessage) {es : List (Event ι)}
    (hes : Along step Pending (new readMsgs) es) :
    ∃ s, run step (new readMsgs) es = some s ∧ ∀ i,
      (s.sessions i).sent <+: ChatSession.texts (s.sessions i).delivered ∧
      ((s.sessions i).writeMsgs = [] →
        (s.sessions i).sent = ChatSession.texts (s.sessions i).delivered) ∧
      (i ∈ s.room.participants →
        (s.sessions i).writing = (s.sessions i).writeMsgs.head?.map ChatMessage.text) := by
  obtain ⟨s, hs, hflowing⟩ :=
    run_progress Flowing (fun _ _ h he => h.step he) (flowing_new readMsgs) hes
  refine ⟨s, hs, fun i => ?_⟩
  obtain ⟨p, hp⟩ := hflowing.flows i
  refine ⟨hp.sent_prefix, fun hempty => ?_, fun hin => ?_⟩
  · have htaken := p.taken_all (hp.queue.symm.trans hempty)
    rw [hp.delivered, ← htaken]
    cases hp.socket with
    | idle _ _ htexts => exact htexts
    | busy hcons => exact absurd (hempty.symm.trans hcons) (List.cons_ne_nil _ _).symm
    | broken k _ _ hcons => exact absurd (hempty.symm.trans hcons) (List.cons_ne_nil _ _).symm
  · cases hp.socket with
    | idle hempty hnone => rw [hempty, hnone]; rfl
    | busy hcons hsome => rw [hcons, hsome]; rfl
    | broken k hnot => exact absurd hin hnot

theorem writes_in_order_one_letter : ∃ s, run step (new fun _ => blank) oneLetter = some s ∧
    (s.sessions false).sent <+: ChatSession.texts (s.sessions false).delivered := by
  obtain ⟨s, hs, h⟩ := writes_in_order (fun _ => blank) oneLetter_pending
  exact ⟨s, hs, (h false).1⟩

end ChatServer
end TestCodes.TestUnits
