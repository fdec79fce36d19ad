import TestCodes.AuthProvider.AuthSock
import TestCodes.Lib.Bytes
import TestCodes.Lib.Framing

/-! The receive side of the two communicators. `RecvNextMsg` and
`RecvAndProcMsg` are written once, over what differs between
`MiddlewareServerCommunicator` and `PLSSServerCommunicator`. -/
namespace TestCodes.AuthProvider

inductive State where
  | terminate
  | notConnected
  | connecting
  | ready
  deriving DecidableEq

/-- The handlers reach the session maps and the other communicator's sender
through `pAuthProvider`; they leave this communicator as it is. -/
structure NetCommunicator where
  sockInterface : AuthSock
  pAuthProvider : Bool
  eState : State

/-- `DisconnectFromServer` leaves `eState` as it is. -/
def NetCommunicator.disconnectFromServer (c : NetCommunicator) : NetCommunicator :=
  { c with sockInterface := c.sockInterface.disconnect }

/-- The read buffer's bytes; none when the pointer is not valid. -/
def NetCommunicator.readBuffer (c : NetCommunicator) : List UInt8 :=
  match c.sockInterface.pReadBuffer with
  | none => []
  | some b => b.toList

/-- FIONREAD: the number of bytes a `recv()` could take. -/
def NetCommunicator.fionread (c : NetCommunicator) : ℕ :=
  match c.sockInterface.hSocket with
  | none => 0
  | some k => k.unread.length

/-- Bytes arriving from the peer; a closed socket receives nothing. -/
def NetCommunicator.arrive (c : NetCommunicator) (chunk : List UInt8) : NetCommunicator :=
  { c with sockInterface := { c.sockInterface with
      hSocket := c.sockInterface.hSocket.map fun k => { k with unread := k.unread ++ chunk } } }

/-- What differs between the communicators: the header that `RecvNextMsg` peeks
at, the size it then reads, and the struct for which `RecvAndProcMsg` calls a
handler, by its size. Both look at the leading bytes of the read buffer. -/
structure Receiver extends Framing UInt8 where
  handled : Bool → List UInt8 → Option ℕ

/-- `switch (header.head[0])`: only `'s'` has a size, and a handler that is
called when there is a provider. -/
def middlewareReceiver : Receiver where
  header := gfHeader.size
  header_pos := by decide
  size h := if h.getD 0 0 = 0x73 then some response.size else none
  handled pAuthProvider h :=
    if h.getD 0 0 = 0x73 then if pAuthProvider then some response.size else none else none

/-- The size is `header.packet_len`, whatever the type is. -/
def plssReceiver : Receiver where
  header := plssHeader.size
  header_pos := by decide
  size h := some (wordAt h 0)
  handled _ h := if wordAt h 2 = 0xD601 then some loginResult.size else none

structure RecvFaults where
  peek : Bool
  ioctl : Bool
  read : Bool

def RecvFaults.none : RecvFaults := ⟨false, false, false⟩

/-- The result of one `RecvNextMsg`, with the sizes its `RecvToBuffer` calls
asked for and the bytes the last of them supplied. -/
structure Received where
  ok : Bool
  comm : NetCommunicator
  asked : List ℕ
  got : Int

/-- The two assertions in front are taken as their plain returns. -/
def recvNextMsg (R : Receiver) (f : RecvFaults) (c : NetCommunicator) : Received :=
  if c.eState ≠ .ready then ⟨false, c, [], 0⟩
  else if c.sockInterface.pReadBuffer.isNone then ⟨false, c, [], 0⟩
  else
    let (iBytesAvailable, sock) := c.sockInterface.recvToBuffer f.peek R.header true
    let c := { c with sockInterface := sock }
    if iBytesAvailable = socketError then ⟨false, c, [R.header], 0⟩
    else if iBytesAvailable < R.header then ⟨false, c, [R.header], 0⟩
    else
      let header := c.readBuffer.take R.header
      -- a failed ioctlsocket disconnects and goes on with the peeked count
      let (iBytesAvailable, c) :=
        if f.ioctl then (iBytesAvailable, c.disconnectFromServer) else ((c.fionread : Int), c)
      match R.size header with
      | none => ⟨false, c, [R.header], 0⟩
      | some size =>
          if (size : Int) > iBytesAvailable then ⟨false, c, [R.header], 0⟩
          else
            let (got, sock) := c.sockInterface.recvToBuffer f.read size false
            ⟨got ≠ socketError, { c with sockInterface := sock }, [R.header, size], got⟩

/-- One round of the loop; `handled` is the struct a handler was called with. -/
structure Round where
  ok : Bool
  asked : List ℕ
  got : Int
  handled : Option (List UInt8)
  deriving DecidableEq

/-- `while (RecvNextMsg()) switch (...)`. The loop need not end: without a
result it is still running when the fuel is used up. -/
def recvLoop (R : Receiver) (faults : ℕ → RecvFaults) :
    ℕ → ℕ → NetCommunicator → List Round × Option NetCommunicator
  | 0, _, _ => ([], none)
  | fuel + 1, round, c =>
      let r := recvNextMsg R (faults round) c
      if !r.ok then ([⟨false, r.asked, r.got, none⟩], some r.comm)
      else
        let handled := (R.handled r.comm.pAuthProvider (r.comm.readBuffer.take R.header)).map
          fun size => r.comm.readBuffer.take size
        let (rounds, out) := recvLoop R faults fuel (round + 1) r.comm
        (⟨true, r.asked, r.got, handled⟩ :: rounds, out)

/-- Without a read buffer, the plain return of the assertion. -/
def recvAndProcMsg (R : Receiver) (faults : ℕ → RecvFaults) (fuel : ℕ) (c : NetCommunicator) :
    List Round × Option NetCommunicator :=
  if c.sockInterface.pReadBuffer.isNone then ([], some c) else recvLoop R faults fuel 0 c

def MiddlewareServerCommunicator.recvNextMsg := AuthProvider.recvNextMsg middlewareReceiver

def MiddlewareServerCommunicator.recvAndProcMsg := AuthProvider.recvAndProcMsg middlewareReceiver

def PLSSServerCommunicator.recvNextMsg := AuthProvider.recvNextMsg plssReceiver

def PLSSServerCommunicator.recvAndProcMsg := AuthProvider.recvAndProcMsg plssReceiver

/-- Chunks arriving one after another, `proc` (a `RecvAndProcMsg`) being run
after each with the faults of that call. -/
def session (proc : (ℕ → RecvFaults) → ℕ → NetCommunicator → List Round × Option NetCommunicator)
    (faults : ℕ → ℕ → RecvFaults) (fuel : ℕ) :
    ℕ → NetCommunicator → List (List UInt8) → List Round × Option NetCommunicator
  | _, c, [] => ([], some c)
  | i, c, chunk :: chunks =>
      match proc (faults i) fuel (c.arrive chunk) with
      | (rounds, none) => (rounds, none)
      | (rounds, some c) =>
          let (more, out) := session proc faults fuel (i + 1) c chunks
          (rounds ++ more, out)

end TestCodes.AuthProvider
