import TestCodes.Lib.TicketLine
import TestCodes.TestUnits.ReaderWriterLockRP

/-! `CReaderWriterLock_NS_WP`: the same word, with two counters in front of it that put the
writers in a queue and hold the readers back while there is a writer in it. -/
namespace TestCodes.TestUnits

open Threads

namespace CReaderWriterLock_NS_WP

export CReaderWriterLock_NS_RP (writerActiveFlag readerCountInc)

/-- Where a thread is. A reader compares the two counters, with what it has read of the one when
it is about to read the other; a writer waits for its turn, and then for the word. -/
inductive Place
  | outside
  | looking
  | looked (first : UInt32)
  | passed
  | counted
  | reading
  | requested (previousWriters : UInt32)
  | acquiring
  | writing
  | ended
  deriving DecidableEq

/-- The three words, and the threads in the order of their write requests, of their writes and
of the ends of these. -/
structure Words (τ : Type*) where
  lock : UInt32
  writeRequests : UInt32
  writeCompletions : UInt32
  requested : List τ
  written : List τ
  completed : List τ

variable {τ : Type*}

/-- The language does not say which operand of `write_requests != write_completions` is read
first. -/
def code (requestsFirst : Bool) (t : τ) (call : LockCall) (s : Words τ) : Place → Words τ × Place
  | .outside =>
      match call with
      | .readLock => (s, .looking)
      | .writeLock =>
          ({ s with writeRequests := s.writeRequests + 1, requested := s.requested ++ [t] },
            .requested (s.writeRequests + 1 - 1))
  | .looking => (s, .looked (if requestsFirst then s.writeRequests else s.writeCompletions))
  | .looked first =>
      let second := if requestsFirst then s.writeCompletions else s.writeRequests
      (s, if first ≠ second then .looking else .passed)
  | .passed => ({ s with lock := s.lock + readerCountInc }, .counted)
  | .counted => (s, if s.lock &&& writerActiveFlag ≠ 0 then .counted else .reading)
  | .reading => ({ s with lock := s.lock - readerCountInc }, .outside)
  | .requested previousWriters =>
      (s, if s.writeCompletions ≠ previousWriters then .requested previousWriters else .acquiring)
  | .acquiring =>
      if s.lock = 0 then
        ({ s with lock := writerActiveFlag, written := s.written ++ [t] }, .writing)
      else (s, .acquiring)
  | .writing => ({ s with lock := s.lock - writerActiveFlag }, .ended)
  | .ended =>
      ({ s with writeCompletions := s.writeCompletions + 1, completed := s.completed ++ [t] },
        .outside)

def new : Threads τ (Words τ) Place := ⟨⟨0, 0, 0, [], [], []⟩, fun _ => .outside⟩

def Place.atWord : Place → CReaderWriterLock_NS_RP.Place
  | .outside | .looking | .looked _ | .passed | .requested _ | .ended => .outside
  | .counted => .counted
  | .reading => .reading
  | .acquiring => .wanting
  | .writing => .writing

def Place.stand : Place → Stand
  | .outside | .looking | .looked _ | .passed | .counted | .reading => .away
  | .requested previousWriters => .waits previousWriters
  | .acquiring | .writing | .ended => .served

section Word
variable {requestsFirst : Bool}

/-- Each step is one of the lock without the counters, or none. -/
theorem code_simulates (t : τ) (call : LockCall) (s : Words τ) (l : Place) :
    (code requestsFirst t call s l).1.lock = s.lock ∧
        (code requestsFirst t call s l).2.atWord = l.atWord ∨
      ∃ call', CReaderWriterLock_NS_RP.code t call' s.lock l.atWord =
        ((code requestsFirst t call s l).1.lock, (code requestsFirst t call s l).2.atWord) := by
  cases l with
  | outside => cases call <;> exact .inl ⟨rfl, rfl⟩
  | looking => exact .inl ⟨rfl, rfl⟩
  | looked first =>
      refine .inl ⟨rfl, ?_⟩
      simp only [code, apply_ite Place.atWord]
      exact ite_self _
  | passed => exact .inr ⟨.readLock, rfl⟩
  | counted =>
      refine .inr ⟨call, ?_⟩
      simp only [code, CReaderWriterLock_NS_RP.code, Place.atWord]
      split <;> rfl
  | reading => exact .inr ⟨call, rfl⟩
  | requested previousWriters =>
      by_cases hcompletions : s.writeCompletions = previousWriters
      · refine .inr ⟨.writeLock, ?_⟩
        simp only [code, if_neg (not_not.mpr hcompletions)]
        rfl
      · refine .inl ⟨rfl, ?_⟩
        simp only [code, if_pos hcompletions]
  | acquiring =>
      refine .inr ⟨call, ?_⟩
      simp only [code, CReaderWriterLock_NS_RP.code, Place.atWord]
      split <;> rfl
  | writing => exact .inr ⟨call, rfl⟩
  | ended => exact .inl ⟨rfl, rfl⟩

variable [DecidableEq τ] [Fintype τ]

theorem counted_of_reaches (hcard : Fintype.card τ < 2 ^ 31) {c : Threads τ (Words τ) Place}
    (hc : Reaches (code requestsFirst) new c) :
    CReaderWriterLock_NS_RP.Counted (view Words.lock Place.atWord c) :=
  CReaderWriterLock_NS_RP.counted_of_reaches hcard (hc.simulates code_simulates)

end Word

def Place.wrote : Place → Bool
  | .writing | .ended => true
  | _ => false

/-- The writers' queue: those before it have completed, and the first of it may have written. -/
structure InOrder (c : Threads τ (Words τ) Place) (queue : List τ) : Prop where
  tickets : TicketLine c.shared.writeRequests c.shared.writeCompletions queue fun t =>
    (c.place t).stand
  counts : c.shared.writeCompletions = .ofNat c.shared.completed.length
  requested : c.shared.requested = c.shared.completed ++ queue
  written : (∃ t, (c.place t).wrote ∧ c.shared.written = c.shared.completed ++ [t]) ∨
    (∀ t, ¬ (c.place t).wrote) ∧ c.shared.written = c.shared.completed

theorem inOrder_new : InOrder (new : Threads τ (Words τ) Place) [] where
  tickets := TicketLine.empty fun _ => rfl
  counts := rfl
  requested := rfl
  written := .inr ⟨fun _ => Bool.false_ne_true, rfl⟩

theorem Place.stand_of_wrote {l : Place} (h : l.wrote) : l.stand = .served := by
  cases l <;> first | rfl | cases h

theorem InOrder.unique {c : Threads τ (Words τ) Place} {queue : List τ} (h : InOrder c queue)
    {t u : τ} (ht : (c.place t).stand = .served) (hu : (c.place u).stand = .served) : t = u :=
  h.tickets.served_unique ht hu

section Line
variable [DecidableEq τ] {requestsFirst : Bool} {c : Threads τ (Words τ) Place} {queue : List τ}

theorem stand_other (c : Threads τ (Words τ) Place) (e : τ × LockCall) (u : τ) (hu : u ≠ e.1) :
    ((step (code requestsFirst) c e).place u).stand = (c.place u).stand := by
  rw [step_place_other _ c hu]

theorem InOrder.unseen (h : InOrder c queue) {e : τ × LockCall} {s : Words τ} {l : Place}
    (hcode : code requestsFirst e.1 e.2 c.shared (c.place e.1) = (s, l))
    (hs : s = { c.shared with lock := s.lock }) (hstand : l.stand = (c.place e.1).stand)
    (hwrote : l.wrote = (c.place e.1).wrote) : InOrder (step (code requestsFirst) c e) queue := by
  have hshared : (step (code requestsFirst) c e).shared = { c.shared with lock := s.lock } := by
    rw [step_shared, hcode]
    exact hs
  have hstands : (fun t => ((step (code requestsFirst) c e).place t).stand) =
      fun t => (c.place t).stand :=
    funext (step_keeps Place.stand (by rw [hcode, hstand]))
  have hwrotes : ∀ t, ((step (code requestsFirst) c e).place t).wrote = (c.place t).wrote :=
    step_keeps Place.wrote (by rw [hcode, hwrote])
  refine ⟨?_, ?_, ?_, ?_⟩
  · rw [hshared, hstands]
    exact h.tickets
  · rw [hshared]
    exact h.counts
  · rw [hshared]
    exact h.requested
  · simp only [hshared, hwrotes]
    exact h.written

theorem InOrder.request (h : InOrder c queue) {e : τ × LockCall} (he : c.place e.1 = .outside)
    (hcall : e.2 = .writeLock) :
    InOrder (step (code requestsFirst) c e) (queue ++ [e.1]) := by
  have hshared : (step (code requestsFirst) c e).shared = { c.shared with
      writeRequests := c.shared.writeRequests + 1
      requested := c.shared.requested ++ [e.1] } := by
    rw [step_shared, he, hcall]
    rfl
  have hself : (step (code requestsFirst) c e).place e.1 =
      .requested c.shared.writeRequests := by
    rw [step_place_self, he, hcall]
    simp only [code, UInt32.add_sub_cancel]
  have hwrote : ∀ u, ((step (code requestsFirst) c e).place u).wrote =
      (c.place u).wrote := by
    apply step_keeps
    rw [← step_place_self, hself, he]
    rfl
  refine ⟨?_, ?_, ?_, ?_⟩
  · rw [hshared]
    exact h.tickets.draw (by rw [he]; rfl) (by rw [hself]; rfl)
      (stand_other c e)
  · rw [hshared]
    exact h.counts
  · rw [hshared, h.requested, List.append_assoc]
  · simp only [hshared, hwrote]
    exact h.written

theorem InOrder.serve [Fintype τ] (hcard : Fintype.card τ < 2 ^ 31) (h : InOrder c queue)
    {e : τ × LockCall} {previousWriters : UInt32} (he : c.place e.1 = .requested previousWriters)
    (hcompletions : c.shared.writeCompletions = previousWriters) :
    InOrder (step (code requestsFirst) c e) queue := by
  have hcode : code requestsFirst e.1 e.2 c.shared (c.place e.1) = (c.shared, .acquiring) := by
    rw [he]
    simp only [code, if_neg (not_not.mpr hcompletions)]
  have hself : (step (code requestsFirst) c e).place e.1 = .acquiring := by
    rw [step_place_self, hcode]
  have hfirst : queue[0]? = some e.1 :=
    (h.tickets.first_iff (by omega) (by rw [he]; rfl)).mp hcompletions
  have hwrote : ∀ u, ((step (code requestsFirst) c e).place u).wrote = (c.place u).wrote := by
    apply step_keeps
    rw [hcode, he]
    rfl
  refine ⟨?_, ?_, ?_, ?_⟩
  · rw [step_shared, hcode]
    exact h.tickets.serve hfirst (by rw [hself]; rfl) (stand_other c e)
  · rw [step_shared, hcode]
    exact h.counts
  · rw [step_shared, hcode]
    exact h.requested
  · simp only [step_shared, hcode, hwrote]
    exact h.written

theorem InOrder.write (h : InOrder c queue) {e : τ × LockCall} (he : c.place e.1 = .acquiring)
    (hlock : c.shared.lock = 0) : InOrder (step (code requestsFirst) c e) queue := by
  have hcode : code requestsFirst e.1 e.2 c.shared (c.place e.1) =
      ({ c.shared with lock := writerActiveFlag, written := c.shared.written ++ [e.1] },
        .writing) := by
    rw [he]
    simp only [code, if_pos hlock]
  have hself : (step (code requestsFirst) c e).place e.1 = .writing := by
    rw [step_place_self, hcode]
  have hserved : (c.place e.1).stand = .served := by rw [he]; rfl
  refine ⟨?_, ?_, ?_, ?_⟩
  · rw [step_shared, hcode]
    exact h.tickets.serve (h.tickets.first_of_served hserved) (by rw [hself]; rfl)
      (stand_other c e)
  · rw [step_shared, hcode]
    exact h.counts
  · rw [step_shared, hcode]
    exact h.requested
  · rw [step_shared, hcode]
    rcases h.written with ⟨t, ht, -⟩ | ⟨-, hwritten⟩
    · obtain rfl : t = e.1 := h.unique (Place.stand_of_wrote ht) hserved
      rw [he] at ht
      cases ht
    · refine .inl ⟨e.1, by rw [hself]; rfl, ?_⟩
      dsimp only
      rw [hwritten]

theorem InOrder.complete (h : InOrder c queue) {e : τ × LockCall} (he : c.place e.1 = .ended) :
    InOrder (step (code requestsFirst) c e) (queue.erase e.1) := by
  have hcode : code requestsFirst e.1 e.2 c.shared (c.place e.1) =
      ({ c.shared with
        writeCompletions := c.shared.writeCompletions + 1
        completed := c.shared.completed ++ [e.1] }, .outside) := by
    rw [he]
    rfl
  have hself : (step (code requestsFirst) c e).place e.1 = .outside := by
    rw [step_place_self, hcode]
  have hserved : (c.place e.1).stand = .served := by rw [he]; rfl
  have hwrote : (c.place e.1).wrote := by rw [he]; rfl
  refine ⟨?_, ?_, ?_, ?_⟩
  · rw [step_shared, hcode]
    exact h.tickets.leave hserved (by rw [hself]; rfl) (stand_other c e)
  · rw [step_shared, hcode]
    dsimp only
    rw [h.counts, List.length_append, List.length_singleton, UInt32.ofNat_add]
    rfl
  · rw [step_shared, hcode]
    obtain ⟨rest, rfl⟩ := h.tickets.cons_of_served hserved
    dsimp only
    rw [h.requested, List.erase_cons_head, List.append_assoc]
    rfl
  · refine .inr ⟨?_, ?_⟩
    · intro u hu
      by_cases hue : u = e.1
      · rw [hue, hself] at hu
        cases hu
      · rw [step_place_other _ c hue] at hu
        exact hue (h.unique (Place.stand_of_wrote hu) hserved)
    · rw [step_shared, hcode]
      rcases h.written with ⟨t, ht, hwritten⟩ | ⟨hnone, -⟩
      · obtain rfl : t = e.1 := h.unique (Place.stand_of_wrote ht) hserved
        exact hwritten
      · exact absurd hwrote (hnone e.1)

theorem InOrder.step [Fintype τ] (hcard : Fintype.card τ < 2 ^ 31) (h : InOrder c queue)
    (e : τ × LockCall) : ∃ queue', InOrder (Threads.step (code requestsFirst) c e) queue' := by
  cases he : c.place e.1 with
  | outside =>
      cases hcall : e.2 with
      | readLock =>
          refine ⟨queue, h.unseen (Prod.mk.eta).symm ?_ ?_ ?_⟩ <;> rw [he, hcall] <;> rfl
      | writeLock => exact ⟨queue ++ [e.1], h.request he hcall⟩
  | looking | passed | reading | writing =>
      refine ⟨queue, h.unseen (Prod.mk.eta).symm ?_ ?_ ?_⟩ <;> rw [he] <;> rfl
  | looked _ | counted =>
      refine ⟨queue, h.unseen (Prod.mk.eta).symm ?_ ?_ ?_⟩
      · rw [he]
        rfl
      · simp only [he, code, apply_ite Place.stand]
        exact ite_self _
      · simp only [he, code, apply_ite Place.wrote]
        exact ite_self _
  | requested previousWriters =>
      by_cases hcompletions : c.shared.writeCompletions = previousWriters
      · exact ⟨queue, h.serve hcard he hcompletions⟩
      · have hcode : code requestsFirst e.1 e.2 c.shared (c.place e.1) =
            (c.shared, .requested previousWriters) := by
          rw [he]
          simp only [code, if_pos hcompletions]
        exact ⟨queue, h.unseen hcode rfl (by rw [he]) (by rw [he])⟩
  | acquiring =>
      by_cases hlock : c.shared.lock = 0
      · exact ⟨queue, h.write he hlock⟩
      · have hcode : code requestsFirst e.1 e.2 c.shared (c.place e.1) =
            (c.shared, .acquiring) := by
          rw [he]
          simp only [code, if_neg hlock]
        exact ⟨queue, h.unseen hcode rfl (by rw [he]) (by rw [he])⟩
  | ended => exact ⟨queue.erase e.1, h.complete he⟩

theorem inOrder_of_reaches [Fintype τ] (hcard : Fintype.card τ < 2 ^ 31)
    (hc : Reaches (code requestsFirst) new c) : ∃ queue, InOrder c queue :=
  hc.invariant (fun c => ∃ queue, InOrder c queue) ⟨[], inOrder_new⟩ fun _ e _ ⟨_, h⟩ =>
    h.step hcard e

omit [DecidableEq τ] in
theorem InOrder.written_prefix (h : InOrder c queue) : c.shared.written <+: c.shared.requested := by
  rw [h.requested]
  rcases h.written with ⟨t, ht, hwritten⟩ | ⟨-, hwritten⟩
  · obtain ⟨rest, rfl⟩ := h.tickets.cons_of_served (Place.stand_of_wrote ht)
    rw [hwritten, List.prefix_append_right_inj]
    exact ⟨rest, rfl⟩
  · rw [hwritten]
    exact List.prefix_append _ _

omit [DecidableEq τ] in
theorem InOrder.turn_iff [Fintype τ] (hcard : Fintype.card τ < 2 ^ 31) (h : InOrder c queue) {t : τ}
    {previousWriters : UInt32} (ht : c.place t = .requested previousWriters) :
    c.shared.writeCompletions = previousWriters ↔
      c.shared.requested[c.shared.completed.length]? = some t := by
  rw [h.requested, List.getElem?_append_right (Nat.le_refl _), Nat.sub_self]
  exact h.tickets.first_iff (by omega) (by rw [ht]; rfl)

end Line

section Admission

theorem code_acquiring_iff {requestsFirst : Bool} (t : τ) (call : LockCall) (s : Words τ)
    (previousWriters : UInt32) :
    (code requestsFirst t call s (.requested previousWriters)).2 = .acquiring ↔
      s.writeCompletions = previousWriters := by
  simp only [code]
  split <;> simp_all

theorem Place.atWord_free_iff (l : Place) : l.atWord = .outside ∨ l.atWord = .wanting ↔
    l ≠ .counted ∧ l ≠ .reading ∧ l ≠ .writing := by
  cases l <;> simp [atWord]

theorem Place.atWord_reading_iff {l : Place} : l.atWord = .reading ↔ l = .reading := by
  cases l <;> simp [atWord]

theorem Place.atWord_writing_iff {l : Place} : l.atWord = .writing ↔ l = .writing := by
  cases l <;> simp [atWord]

variable [DecidableEq τ] [Fintype τ]

/-- In every interleaving of fewer than 2^31 threads a writer is alone with the lock and the
writers write in the order of their requests. A reader that is counted gets the lock exactly
while there is no writer, a writer gets its turn exactly when all those before it have ended,
and then the lock exactly while nobody else is counted. -/
theorem admits_in_write_order {requestsFirst : Bool} (hcard : Fintype.card τ < 2 ^ 31)
    {c : Threads τ (Words τ) Place} (hc : Reaches (code requestsFirst) new c) :
    ReadersWriter (· = .reading) (· = .writing) c.place ∧
    c.shared.written <+: c.shared.requested ∧ ∀ t call,
      (c.place t = .counted → ((step (code requestsFirst) c (t, call)).place t = .reading ↔
        ∀ u, c.place u ≠ .writing)) ∧
      (∀ previousWriters, c.place t = .requested previousWriters →
        ((step (code requestsFirst) c (t, call)).place t = .acquiring ↔
          c.shared.requested[c.shared.completed.length]? = some t)) ∧
      (c.place t = .acquiring → ((step (code requestsFirst) c (t, call)).place t = .writing ↔
        ∀ u, c.place u ≠ .counted ∧ c.place u ≠ .reading ∧ c.place u ≠ .writing)) := by
  obtain ⟨queue, h⟩ := inOrder_of_reaches hcard hc
  have hcounted := counted_of_reaches hcard hc
  refine ⟨?_, h.written_prefix, fun t call => ⟨fun ht => ?_, fun previousWriters ht => ?_,
    fun ht => ?_⟩⟩
  · have hexcludes := hcounted.excludes
    simpa only [ReadersWriter, view_place, Place.atWord_reading_iff, Place.atWord_writing_iff]
      using hexcludes
  · have hnone := hcounted.flag_iff.not.trans hcounted.no_writer_iff
    simp only [view_place, view_shared, ne_eq, not_not, Place.atWord_writing_iff] at hnone
    rw [step_place_self (e := (t, call)), ht, ← hnone]
    simp only [code]
    split <;> simp_all
  · rw [step_place_self (e := (t, call)), ht, code_acquiring_iff, h.turn_iff hcard ht]
  · have hfree := hcounted.zero_iff
    rw [CReaderWriterLock_NS_RP.Counted.free_iff] at hfree
    simp only [view_place, view_shared, Place.atWord_free_iff] at hfree
    rw [step_place_self (e := (t, call)), ht, ← hfree]
    simp only [code]
    split <;> simp_all

/-- The second of two writers, when the first has ended. -/
theorem admits_in_write_order_second_writer :
    ∃ c : Threads Bool (Words Bool) Place, Reaches (code true) new c ∧
      c.place true = .requested 1 ∧ (step (code true) c (true, .writeLock)).place true =
        .acquiring := by
  let c : Threads Bool (Words Bool) Place := run (code true) new
    ([false, true, false, false, false, false].map (·, .writeLock))
  have hc : Reaches (code true) new c := ⟨_, rfl⟩
  refine ⟨c, hc, by decide, ?_⟩
  have hturn := ((admits_in_write_order (by decide) hc).2.2 true .writeLock).2.1
  exact (hturn 1 (by decide)).mpr (by decide)

end Admission

section Preference

/-- A reader that has begun to compare the counters, or is past that. -/
def Place.compares : Place → Bool
  | .looked _ | .passed | .counted | .reading => true
  | _ => false

def Place.past : Place → Bool
  | .passed | .counted | .reading => true
  | _ => false

/-- What a reader can have seen while the request number `k` is not completed: with `requests`
of them made by now, or with no more than `completions` completed. -/
def Place.held (requestsFirst : Bool) (requests completions k : ℕ) : Place → Prop
  | .looked first =>
      if requestsFirst then ∃ n, first = .ofNat n ∧ k < n ∧ n ≤ requests
      else ∃ n, first = .ofNat n ∧ n ≤ completions ∧ k < n + 2 ^ 31
  | l => ¬ l.past

variable {requestsFirst : Bool} {c c₀ : Threads τ (Words τ) Place} {queue : List τ}
  {requests requests' completions completions' k : ℕ}

theorem Place.held.mono {l : Place} (h : l.held requestsFirst requests completions k)
    (hrequests : requests ≤ requests') (hcompletions : completions ≤ completions') :
    l.held requestsFirst requests' completions' k := by
  cases l with
  | looked first =>
      cases requestsFirst with
      | true =>
          obtain ⟨n, hn, hlt, hle⟩ := h
          exact ⟨n, hn, hlt, hle.trans hrequests⟩
      | false =>
          obtain ⟨n, hn, hle, hlt⟩ := h
          exact ⟨n, hn, hle.trans hcompletions, hlt⟩
  | _ => exact h

theorem ofNat_ne {m n : ℕ} (hlt : m < n) (hle : n < m + 2 ^ 32) :
    UInt32.ofNat n ≠ UInt32.ofNat m := by
  rw [ne_eq, ← UInt32.toNat_inj, UInt32.toNat_ofNat', UInt32.toNat_ofNat']
  omega

theorem code_held (t : τ) (call : LockCall) {s : Words τ} {l : Place}
    (hrequests : s.writeRequests = .ofNat requests)
    (hcompletions : s.writeCompletions = .ofNat completions) (hk : completions ≤ k ∧ k < requests)
    (hfew : requests < completions + 2 ^ 31) (h : l.held requestsFirst requests completions k) :
    (code requestsFirst t call s l).2.held requestsFirst requests completions k := by
  cases l with
  | outside => cases call <;> exact Bool.false_ne_true
  | looking =>
      cases requestsFirst with
      | true => exact ⟨requests, hrequests, hk.2, Nat.le_refl _⟩
      | false => exact ⟨completions, hcompletions, Nat.le_refl _, by omega⟩
  | looked first =>
      have hne : first ≠ if requestsFirst then s.writeCompletions else s.writeRequests := by
        cases requestsFirst with
        | true =>
            obtain ⟨n, rfl, hlt, hle⟩ := h
            rw [if_pos rfl, hcompletions]
            exact ofNat_ne (by omega) (by omega)
        | false =>
            obtain ⟨n, rfl, hle, hlt⟩ := h
            rw [if_neg Bool.false_ne_true, hrequests]
            exact (ofNat_ne (by omega) (by omega)).symm
      simp only [code, if_pos hne]
      exact Bool.false_ne_true
  | passed | counted | reading => exact absurd rfl h
  | requested previousWriters =>
      simp only [code]
      split <;> exact Bool.false_ne_true
  | acquiring =>
      simp only [code]
      split <;> exact Bool.false_ne_true
  | writing | ended => exact Bool.false_ne_true

theorem code_lengths (requestsFirst : Bool) (t : τ) (call : LockCall) (s : Words τ) (l : Place) :
    s.requested.length ≤ (code requestsFirst t call s l).1.requested.length ∧
      s.completed.length ≤ (code requestsFirst t call s l).1.completed.length := by
  cases l with
  | outside => cases call <;> simp [code]
  | acquiring => simp only [code]; split <;> simp
  | _ => simp [code]

theorem InOrder.requests_lt [Fintype τ] (hcard : Fintype.card τ < 2 ^ 31) (h : InOrder c queue) :
    c.shared.requested.length < c.shared.completed.length + 2 ^ 31 := by
  have hlength := h.tickets.nodup.length_le_card
  rw [h.requested, List.length_append]
  omega

theorem InOrder.requests_eq (h : InOrder c queue) :
    c.shared.writeRequests = .ofNat c.shared.requested.length := by
  rw [h.tickets.next_eq, h.counts, h.requested, List.length_append, UInt32.ofNat_add]

structure HeldBack (requestsFirst : Bool) (k : ℕ) (t : τ) (c : Threads τ (Words τ) Place) :
    Prop where
  inOrder : ∃ queue, InOrder c queue
  made : k < c.shared.requested.length
  near : k < c.shared.completed.length + 2 ^ 31
  held : c.shared.completed.length ≤ k →
    (c.place t).held requestsFirst c.shared.requested.length c.shared.completed.length k

variable [DecidableEq τ] [Fintype τ] {t : τ}

theorem HeldBack.step (hcard : Fintype.card τ < 2 ^ 31) (h : HeldBack requestsFirst k t c)
    (e : τ × LockCall) : HeldBack requestsFirst k t (Threads.step (code requestsFirst) c e) := by
  obtain ⟨queue, hqueue⟩ := h.inOrder
  obtain ⟨hmade, hcompleted⟩ := code_lengths requestsFirst e.1 e.2 c.shared (c.place e.1)
  refine ⟨hqueue.step hcard e, h.made.trans_le hmade, ?_, fun hk => ?_⟩
  · rw [step_shared]
    have hnear := h.near
    omega
  · rw [step_shared] at hk ⊢
    have hheld := h.held (hcompleted.trans hk)
    by_cases ht : t = e.1
    · rw [ht] at hheld ⊢
      rw [step_place_self]
      exact (code_held e.1 e.2 hqueue.requests_eq hqueue.counts ⟨hcompleted.trans hk, h.made⟩
        (hqueue.requests_lt hcard) hheld).mono hmade hcompleted
    · rw [step_place_other _ c ht]
      exact hheld.mono hmade hcompleted

/-- A writer goes before every reader that comes after its request: until the request is
completed, no thread that had not begun to compare the counters gets past that, whichever
counter is read first. -/
theorem holds_readers_back (hcard : Fintype.card τ < 2 ^ 31)
    (hc₀ : Reaches (code requestsFirst) new c₀) (hc : Reaches (code requestsFirst) c₀ c)
    (hk : k < c₀.shared.requested.length) (hcompleted : c.shared.completed.length ≤ k)
    (ht : ¬ (c₀.place t).compares) : ¬ (c.place t).past := by
  obtain ⟨queue, hqueue⟩ := inOrder_of_reaches hcard hc₀
  have hheld₀ : (c₀.place t).held requestsFirst c₀.shared.requested.length
      c₀.shared.completed.length k := by
    cases hplace : c₀.place t with
    | looked first | passed | counted | reading =>
        rw [hplace] at ht
        exact absurd rfl ht
    | _ => exact Bool.false_ne_true
  have hheldBack : HeldBack requestsFirst k t c :=
    hc.invariant (HeldBack requestsFirst k t)
      ⟨⟨queue, hqueue⟩, hk, hk.trans (hqueue.requests_lt hcard), fun _ => hheld₀⟩
      fun _ e _ h => h.step hcard e
  have hheld := hheldBack.held hcompleted
  cases hplace : c.place t with
  | passed | counted | reading =>
      rw [hplace] at hheld
      exact hheld
  | _ => exact Bool.false_ne_true

/-- A reader that comes while a writer waits for another reader. -/
theorem holds_readers_back_waiting_writer :
    ∃ c₀ c : Threads (Fin 3) (Words (Fin 3)) Place, Reaches (code true) c₀ c ∧
      c₀.place 0 = .reading ∧ c₀.place 1 = .requested 0 ∧ c.place 0 = .outside ∧
      c.place 1 = .writing ∧ ¬ (c.place 2).past := by
  let c₀ : Threads (Fin 3) (Words (Fin 3)) Place := run (code true) new
    [(0, .readLock), (0, .readLock), (0, .readLock), (0, .readLock), (0, .readLock),
      (1, .writeLock)]
  let c := run (code true) c₀ ([2, 2, 0, 2, 1, 1, 2, 2].map (·, .readLock))
  have hc₀ : Reaches (code true) new c₀ := ⟨_, rfl⟩
  have hc : Reaches (code true) c₀ c := ⟨_, rfl⟩
  refine ⟨c₀, c, hc, by decide, by decide, by decide, by decide, ?_⟩
  exact holds_readers_back (k := 0) (by decide) hc₀ hc (by decide) (by decide) (by decide)

end Preference
end CReaderWriterLock_NS_WP
end TestCodes.TestUnits
