import TestCodes.TestUnits.ChatDelivery

/-! What a participant of the chat room gets: the last messages before it came, and all since, in
the one order in which the room was given them. -/
namespace TestCodes.TestUnits

open Machine

theorem popFrontWhile_eq {α : Type*} (n : ℕ) (xs : List α) :
    popFrontWhile n xs = xs.drop (xs.length - n) := by
  induction xs with
  | nil => simp [popFrontWhile]
  | cons x xs ih =>
      rw [popFrontWhile]
      split
      · rename_i hlt
        rw [List.length_cons] at hlt ⊢
        rw [ih, show xs.length + 1 - n = (xs.length - n) + 1 by omega, List.drop_succ_cons]
      · rename_i hge
        rw [Nat.sub_eq_zero_of_le (Nat.not_lt.mp hge), List.drop_zero]

def lastOf {α : Type*} (n : ℕ) (xs : List α) : List α := xs.drop (xs.length - n)

theorem lastOf_snoc {α : Type*} (n : ℕ) (xs : List α) (x : α) :
    popFrontWhile n (lastOf n xs ++ [x]) = lastOf n (xs ++ [x]) := by
  have hle : xs.length - n ≤ xs.length := Nat.sub_le _ _
  rw [popFrontWhile_eq, lastOf, lastOf, ← List.drop_append_of_le_length hle, List.drop_drop,
    List.length_drop, List.length_append, List.length_singleton]
  congr 1
  omega

def ChatRoom.msgs {ι : Type*} (r : ChatRoom ι) : List ChatMessage := r.said.map Prod.snd

namespace ChatServer
variable {ι : Type*} [DecidableEq ι] {s t : ChatServer ι} {i j : ι} {before : List ChatMessage}

def Remembers (s : ChatServer ι) : Prop :=
  s.room.recentMsgs = lastOf maxRecentMsgs s.room.msgs

theorem handleReadHeader_room (s : ChatServer ι) (i : ι) (bytes : List Int8) :
    (s.handleReadHeader i bytes).room.recentMsgs = s.room.recentMsgs ∧
      (s.handleReadHeader i bytes).room.said = s.room.said := by
  rw [handleReadHeader]
  split <;> exact ⟨rfl, rfl⟩

theorem handleWrite_eq (he : s.handleWrite i = some t) : ∃ msg rest,
    (s.sessions i).writeMsgs = msg :: rest ∧ t = s.modify i fun c =>
      { c with writeMsgs := rest, sent := c.sent ++ c.writing.getD [] }.asyncWrite := by
  unfold handleWrite at he
  split at he
  · cases he
  · exact ⟨_, _, ‹_›, (Option.some.inj he).symm⟩

theorem step_room {e : Event ι} (he : s.step e = some t) :
    (t.room.recentMsgs = s.room.recentMsgs ∧ t.room.said = s.room.said) ∨ ∃ i msg,
      t.room.recentMsgs = popFrontWhile maxRecentMsgs (s.room.recentMsgs ++ [msg]) ∧
        t.room.said = s.room.said ++ [(i, msg)] := by
  cases e with
  | accepted i | readFailed i | writeFailed i k =>
      obtain rfl := Option.some.inj he
      exact .inl ⟨rfl, rfl⟩
  | headerRead i bytes =>
      obtain rfl := Option.some.inj he
      exact .inl (handleReadHeader_room s i bytes)
  | bodyRead i bytes =>
      obtain rfl := Option.some.inj he
      exact .inr ⟨i, _, rfl, rfl⟩
  | written i =>
      obtain ⟨msg, rest, -, rfl⟩ := handleWrite_eq he
      exact .inl ⟨rfl, rfl⟩

theorem Remembers.step (h : Remembers s) {e : Event ι} (he : s.step e = some t) :
    Remembers t := by
  rcases step_room he with ⟨hrecent, hsaid⟩ | ⟨i, msg, hrecent, hsaid⟩
  · rw [Remembers, hrecent, ChatRoom.msgs, hsaid]
    exact h
  · rw [Remembers, hrecent, ChatRoom.msgs, hsaid, h, List.map_append]
    exact lastOf_snoc _ _ _

/-- A session that has started when the room had been given `before`. -/
structure Joined (before : List ChatMessage) (i : ι) (s : ChatServer ι) : Prop where
  started : (s.sessions i).reads ≠ .unstarted
  since : before <+: s.room.msgs
  delivered : i ∈ s.room.participants → (s.sessions i).delivered =
    lastOf maxRecentMsgs before ++ s.room.msgs.drop before.length

theorem Joined.modify (h : Joined before i s) (j : ι) (f : ChatSession → ChatSession)
    (hreads : (f (s.sessions j)).reads = .unstarted → (s.sessions j).reads = .unstarted)
    (hdelivered : (f (s.sessions j)).delivered = (s.sessions j).delivered) :
    Joined before i (s.modify j f) := by
  by_cases hij : i = j
  · subst hij
    refine ⟨?_, h.since, ?_⟩
    · rw [modify_self]
      exact fun hu => h.started (hreads hu)
    · rw [modify_self, hdelivered]
      exact h.delivered
  · refine ⟨?_, h.since, ?_⟩
    · rw [modify_other s f hij]
      exact h.started
    · rw [modify_other s f hij]
      exact h.delivered

theorem Joined.leave (h : Joined before i s) (j : ι) : Joined before i (s.leave j) :=
  ⟨h.started, h.since, fun hi => h.delivered (Finset.mem_of_mem_erase hi)⟩

theorem Joined.deliver (h : Joined before i s) (j : ι) (msg : ChatMessage) :
    Joined before i (s.deliver j msg) := by
  have hmsgs : (s.deliver j msg).room.msgs = s.room.msgs ++ [msg] := List.map_append
  refine ⟨?_, ?_, fun hi => ?_⟩
  · by_cases hin : i ∈ s.room.participants
    · rw [deliver_sessions_in s j msg hin, ChatSession.deliver_reads]
      exact h.started
    · rw [deliver_sessions_out s j msg hin]
      exact h.started
  · rw [hmsgs]
    exact h.since.trans (List.prefix_append _ _)
  · have hin : i ∈ s.room.participants := hi
    rw [deliver_sessions_in s j msg hin, ChatSession.deliver_delivered, h.delivered hin, hmsgs,
      List.drop_append_of_le_length h.since.length_le, List.append_assoc]

theorem Joined.start (h : Joined before i s) (hj : (s.sessions j).reads = .unstarted) :
    Joined before i (s.start j) := by
  have hij : i ≠ j := by
    rintro rfl
    exact h.started hj
  refine ⟨?_, h.since, fun hi => ?_⟩
  · rw [start_other s hij]
    exact h.started
  · rw [start_other s hij]
    exact h.delivered (Finset.mem_of_mem_insert_of_ne hi hij)

theorem joined_start (hflowing : Flowing s) (hremembers : Remembers s)
    (hi : (s.sessions i).reads = .unstarted) : Joined s.room.msgs i (s.start i) := by
  refine ⟨?_, List.prefix_rfl, fun _ => ?_⟩
  · rw [start_self]
    exact Reads.noConfusion
  · rw [start_self]
    change (s.room.recentMsgs.foldl ChatSession.deliver (s.sessions i)).delivered = _
    rw [ChatSession.foldl_deliver_delivered, hflowing.untouched i hi, hremembers]
    change [] ++ lastOf maxRecentMsgs s.room.msgs =
      lastOf maxRecentMsgs s.room.msgs ++ s.room.msgs.drop s.room.msgs.length
    rw [List.drop_length, List.append_nil, List.nil_append]

theorem Joined.step (h : Joined before i s) {e : Event ι} (hpending : s.Pending e)
    (he : s.step e = some t) : Joined before i t := by
  cases e with
  | accepted j =>
      obtain rfl := Option.some.inj he
      exact h.start hpending
  | headerRead j bytes =>
      obtain rfl := Option.some.inj he
      have hreceive := h.modify j (fun c => c.receive 0 bytes) id rfl
      rw [handleReadHeader]
      split
      · exact hreceive.modify j (fun c => { c with readMsg := _, reads := .body })
          (fun hu => Reads.noConfusion hu) rfl
      · exact (hreceive.modify j (fun c => { c with readMsg := _, reads := .ended })
          (fun hu => Reads.noConfusion hu) rfl).leave j
  | bodyRead j bytes =>
      obtain rfl := Option.some.inj he
      exact ((h.modify j (fun c => c.receive headerLength bytes) id rfl).deliver j _).modify j
        (fun c => { c with reads := .header }) (fun hu => Reads.noConfusion hu) rfl
  | readFailed j =>
      obtain rfl := Option.some.inj he
      exact (h.modify j (fun c => { c with reads := .ended }) (fun hu => Reads.noConfusion hu)
        rfl).leave j
  | written j =>
      obtain ⟨msg, rest, -, rfl⟩ := handleWrite_eq he
      exact h.modify j _ id rfl
  | writeFailed j k =>
      obtain rfl := Option.some.inj he
      exact (h.modify j _ id rfl).leave j

theorem reached (readMsgs : ι → ChatMessage) {es : List (Event ι)}
    (hes : Along step Pending (new readMsgs) es) (hs : run step (new readMsgs) es = some s) :
    Flowing s ∧ Remembers s := by
  apply run_invariant (fun s => Flowing s ∧ Remembers s) ?_ ⟨flowing_new readMsgs, rfl⟩ hes hs
  rintro s e t ⟨hflowing, hremembers⟩ hpending he
  obtain ⟨t', he', hflowing'⟩ := hflowing.step hpending
  obtain rfl := Option.some.inj (he.symm.trans he')
  exact ⟨hflowing', hremembers.step he⟩

/-- Every participant has got the last 100 messages from before it came and every message since,
in the order in which the room was given them: one order for all. -/
theorem delivers_since_join (readMsgs : ι → ChatMessage) {es es' : List (Event ι)}
    (hes : Along step Pending (new readMsgs) es) (hs : run step (new readMsgs) es = some s)
    (hes' : Along step Pending s (.accepted i :: es'))
    (ht : run step s (.accepted i :: es') = some t) (hi : i ∈ t.room.participants) :
    s.room.msgs <+: t.room.msgs ∧ (t.sessions i).delivered =
      lastOf maxRecentMsgs s.room.msgs ++ t.room.msgs.drop s.room.msgs.length := by
  obtain ⟨hflowing, hremembers⟩ := reached readMsgs hes hs
  have hjoined : Joined s.room.msgs i t := by
    apply run_invariant (Joined s.room.msgs i) ?_ (joined_start hflowing hremembers hes'.1)
      hes'.2 ht
    exact fun _ _ _ h hpending he => h.step hpending he
  exact ⟨hjoined.since, hjoined.delivered hi⟩

theorem oneLetter_participants :
    (run step (new fun _ => blank) oneLetter).map (·.room.participants) = some {false} := by
  decide +kernel

theorem delivers_since_join_one_letter : ∃ t, run step (new fun _ => blank) oneLetter = some t ∧
    (t.sessions false).delivered = t.room.msgs := by
  obtain ⟨t, ht, hin⟩ := Option.map_eq_some_iff.mp oneLetter_participants
  have hempty : Along step Pending (new fun _ : Bool => blank) [] := trivial
  have hfalse : false ∈ t.room.participants := by
    rw [hin]
    exact Finset.mem_singleton_self false
  exact ⟨t, ht, (delivers_since_join (fun _ => blank) hempty rfl oneLetter_pending ht hfalse).2⟩

end ChatServer
end TestCodes.TestUnits
