import Mathlib.Data.Finset.Insert
import TestCodes.Lib.Machine
import TestCodes.TestUnits.ChatMessage

/-! The chat server: a room that hands every message to all that are in it, and sessions that read
messages from a socket and write theirs one after the other. One thread runs the handlers, so that
each is one step. -/
namespace TestCodes.TestUnits

inductive Reads
  | unstarted
  | header
  | body
  | ended
  deriving DecidableEq

/-- `chat_session`, with the characters of the `async_write` that is under way. What was read
from and written to the socket, and which messages were delivered, is history. -/
structure ChatSession where
  readMsg : ChatMessage
  reads : Reads
  writeMsgs : List ChatMessage
  writing : Option (List Int8)
  received : List Int8
  delivered : List ChatMessage
  sent : List Int8

namespace ChatSession

/-- `readMsg` is as its constructor leaves it. -/
def new (readMsg : ChatMessage) : ChatSession := ⟨readMsg, .unstarted, [], none, [], [], []⟩

/-- `async_write` of the front of the queue, if there is one. -/
def asyncWrite (c : ChatSession) : ChatSession :=
  { c with writing := c.writeMsgs.head?.map ChatMessage.text }

def deliver (c : ChatSession) (msg : ChatMessage) : ChatSession :=
  let writeInProgress := !c.writeMsgs.isEmpty
  let c := { c with writeMsgs := c.writeMsgs ++ [msg], delivered := c.delivered ++ [msg] }
  if writeInProgress then c else c.asyncWrite

def receive (c : ChatSession) (i : ℕ) (bytes : List Int8) : ChatSession :=
  { c with readMsg := c.readMsg.store i bytes, received := c.received ++ bytes }

end ChatSession

def maxRecentMsgs : ℕ := 100

def popFrontWhile {α : Type*} (n : ℕ) : List α → List α
  | [] => []
  | x :: xs => if n < (x :: xs).length then popFrontWhile n xs else x :: xs

/-- `chat_room`; the messages that it was given, and by which session, are history. -/
structure ChatRoom (ι : Type*) where
  participants : Finset ι
  recentMsgs : List ChatMessage
  said : List (ι × ChatMessage)

structure ChatServer (ι : Type*) where
  room : ChatRoom ι
  sessions : ι → ChatSession

namespace ChatServer
variable {ι : Type*}

def new (readMsgs : ι → ChatMessage) : ChatServer ι :=
  ⟨⟨∅, [], []⟩, fun i => .new (readMsgs i)⟩

variable [DecidableEq ι]

def modify (s : ChatServer ι) (i : ι) (f : ChatSession → ChatSession) : ChatServer ι :=
  { s with sessions := Function.update s.sessions i (f (s.sessions i)) }

def join (s : ChatServer ι) (i : ι) : ChatServer ι :=
  { s with room := { s.room with participants := insert i s.room.participants } }.modify i
    fun c => s.room.recentMsgs.foldl ChatSession.deliver c

def leave (s : ChatServer ι) (i : ι) : ChatServer ι :=
  { s with room := { s.room with participants := s.room.participants.erase i } }

/-- No participant sees in which order the message is handed out. -/
def deliver (s : ChatServer ι) (i : ι) (msg : ChatMessage) : ChatServer ι where
  room := { s.room with
    recentMsgs := popFrontWhile maxRecentMsgs (s.room.recentMsgs ++ [msg])
    said := s.room.said ++ [(i, msg)] }
  sessions := fun j =>
    if j ∈ s.room.participants then (s.sessions j).deliver msg else s.sessions j

/-- What the service calls a handler with: a new connection, characters as many as were asked for,
an error, a completed write, a write that has failed after `k` characters. -/
inductive Event (ι : Type*)
  | accepted (i : ι)
  | headerRead (i : ι) (bytes : List Int8)
  | bodyRead (i : ι) (bytes : List Int8)
  | readFailed (i : ι)
  | written (i : ι)
  | writeFailed (i : ι) (k : ℕ)

/-- The handler is one that the session waits for. -/
def Pending (s : ChatServer ι) : Event ι → Prop
  | .accepted i => (s.sessions i).reads = .unstarted
  | .headerRead i bytes => (s.sessions i).reads = .header ∧ bytes.length = headerLength
  | .bodyRead i bytes =>
      (s.sessions i).reads = .body ∧ bytes.length = (s.sessions i).readMsg.bodyLength
  | .readFailed i => (s.sessions i).reads = .header ∨ (s.sessions i).reads = .body
  | .written i => (s.sessions i).writing ≠ none
  | .writeFailed i _ => (s.sessions i).writing ≠ none

instance Pending.decidable (s : ChatServer ι) : ∀ e, Decidable (s.Pending e)
  | .accepted i => inferInstanceAs (Decidable ((s.sessions i).reads = .unstarted))
  | .headerRead _ _ | .bodyRead _ _ => inferInstanceAs (Decidable (_ ∧ _))
  | .readFailed _ => inferInstanceAs (Decidable (_ ∨ _))
  | .written i | .writeFailed i _ => inferInstanceAs (Decidable ((s.sessions i).writing ≠ none))

def start (s : ChatServer ι) (i : ι) : ChatServer ι :=
  (s.join i).modify i fun c => { c with reads := .header }

def handleReadHeader (s : ChatServer ι) (i : ι) (bytes : List Int8) : ChatServer ι :=
  let s := s.modify i fun c => c.receive 0 bytes
  let decoded := (s.sessions i).readMsg.decodeHeader
  if decoded.2 then s.modify i fun c => { c with readMsg := decoded.1, reads := .body }
  else (s.modify i fun c => { c with readMsg := decoded.1, reads := .ended }).leave i

def handleReadBody (s : ChatServer ι) (i : ι) (bytes : List Int8) : ChatServer ι :=
  let s := s.modify i fun c => c.receive headerLength bytes
  (s.deliver i (s.sessions i).readMsg).modify i fun c => { c with reads := .header }

/-- `none` is a `pop_front` of an empty queue. -/
def handleWrite (s : ChatServer ι) (i : ι) : Option (ChatServer ι) :=
  match (s.sessions i).writeMsgs with
  | [] => none
  | _ :: rest => some <| s.modify i fun c =>
      { c with writeMsgs := rest, sent := c.sent ++ c.writing.getD [] }.asyncWrite

def handleWriteError (s : ChatServer ι) (i : ι) (k : ℕ) : ChatServer ι :=
  (s.modify i fun c =>
    { c with writing := none, sent := c.sent ++ (c.writing.getD []).take k }).leave i

def step (s : ChatServer ι) : Event ι → Option (ChatServer ι)
  | .accepted i => some (s.start i)
  | .headerRead i bytes => some (s.handleReadHeader i bytes)
  | .bodyRead i bytes => some (s.handleReadBody i bytes)
  | .readFailed i => some ((s.modify i fun c => { c with reads := .ended }).leave i)
  | .written i => s.handleWrite i
  | .writeFailed i k => some (s.handleWriteError i k)

def blank : ChatMessage := .new (List.replicate 516 0) List.length_replicate

def oneLetter : List (Event Bool) :=
  [.accepted false, .headerRead false [0x20, 0x20, 0x20, 0x31], .bodyRead false [0x61]]

theorem oneLetter_pending : Machine.Along step Pending (new fun _ => blank) oneLetter := by
  decide +kernel

end ChatServer
end TestCodes.TestUnits
