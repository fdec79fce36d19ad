import TestCodes.AuthProvider.Packets

/-! `NS_AUTHNET::AuthSock`: connecting, sending through `SendBufferQueue`, and
reading into the shared buffer. `size_t` is 32 bits wide (the project builds
for Win32 only); `csSendBufferLock` makes each method one step. An assertion that fails is taken
as its plain return, although its message (`%s` for `__LINE__`) ends the process first. -/
namespace TestCodes.AuthProvider

/-- One connection as the operating system holds it. -/
structure Socket where
  accepted : List UInt8
  unread : List UInt8
  deriving DecidableEq

def Socket.fresh : Socket := ⟨[], []⟩

structure SockAddr where
  sinAddr : UInt32
  sinPort : UInt16

/-- A queue entry: the bytes of the allocation and the length recorded for it. -/
abbrev SendBuffer := List UInt8 × ℕ

structure AuthSock where
  hSocket : Option Socket
  address : SockAddr
  sendBufferQueue : List SendBuffer
  iSendBufferOffset : ℕ
  pReadBuffer : Option SMsgBuffer

def socketError : Int := -1

/-- A fresh object; the constructor leaves `pReadBuffer` as it finds it. -/
def AuthSock.new (address : SockAddr) (pReadBuffer : Option SMsgBuffer) : AuthSock where
  hSocket := none
  address
  sendBufferQueue := []
  iSendBufferOffset := 0
  pReadBuffer

/-- How the three system calls of `ConnectToServer` come out. -/
structure ConnectEnv where
  socketOk : Bool
  eventSelectOk : Bool
  connectOk : Bool

/-- A `socket()` that fails is the plain return of its assertion. -/
def AuthSock.connectToServer (s : AuthSock) (env : ConnectEnv) : Bool × AuthSock :=
  if s.address.sinAddr = 0 ∨ s.address.sinPort = 0 then (false, s)
  else if !env.socketOk then (false, { s with hSocket := none })
  else
    let s := { s with hSocket := some Socket.fresh }
    if !env.eventSelectOk then (false, s)
    -- `connectOk` also covers the pending connect (WSAEWOULDBLOCK)
    else (env.connectOk, s)

def AuthSock.clearSendBufferQueue (s : AuthSock) : AuthSock :=
  { s with sendBufferQueue := [] }

/-- `iSendBufferOffset` is not among what the clean-up resets. -/
def AuthSock.disconnect (s : AuthSock) : AuthSock :=
  match s.hSocket with
  | none => s
  | some _ => { s with hSocket := none }.clearSendBufferQueue

/-- What one `send()` does: takes up to `count` bytes, would block, or fails. -/
inductive SendChoice where
  | accept (count : ℕ)
  | wouldBlock
  | fail
  deriving DecidableEq

/-- `send()` hands back a count between 0 and the requested size, or an error;
a negative size can only be an error. `buffer` is the memory at the pointer. -/
def AuthSock.sendFromBuffer (s : AuthSock) (choice : SendChoice)
    (buffer : List UInt8) (iBufferSize : Int) : Int × AuthSock :=
  match s.hSocket, choice with
  | none, _ | _, .fail => (socketError, s)
  | some _, .wouldBlock => (0, s)
  | some k, .accept count =>
      if iBufferSize < 0 then (socketError, s)
      else
        let taken := buffer.take (min count iBufferSize.toNat)
        (taken.length, { s with hSocket := some { k with accepted := k.accepted ++ taken } })

/-- The environment of one flush: the socket's answer to each `send()` of the
loop, and the memory that lies past an allocation. -/
structure SendEnv where
  choice : ℕ → SendChoice
  beyond : ℕ → UInt8

def readMem (block : List UInt8) (beyond : ℕ → UInt8) (off n : ℕ) : List UInt8 :=
  (List.range n).map fun i => block.getD (off + i) (beyond (off + i))

/-- The loop of `SendFromBufferQueue`, one `send()` for each round; `queue` is
`SendBufferQueue`, from which nothing else removes while the loop runs. -/
def AuthSock.flush (env : SendEnv) : List SendBuffer → ℕ → AuthSock → Bool × AuthSock
  | [], _, s => (true, { s with sendBufferQueue := [] })
  | (block, len) :: rest, round, s =>
      let iSendSize : Int := len - s.iSendBufferOffset
      let memory := readMem block env.beyond s.iSendBufferOffset iSendSize.toNat
      let (iBytesSent, s) := s.sendFromBuffer (env.choice round) memory iSendSize
      let s := { s with sendBufferQueue := (block, len) :: rest }
      if iBytesSent = socketError then (false, s)
      else if iBytesSent < iSendSize then
        (true, { s with iSendBufferOffset := s.iSendBufferOffset + iBytesSent.toNat })
      else flush env rest (round + 1) { s with iSendBufferOffset := 0 }

def AuthSock.sendFromBufferQueue (s : AuthSock) (env : SendEnv) : Bool × AuthSock :=
  flush env s.sendBufferQueue 0 s

/-- `pData` with its `dataSize`, a `size_t`. -/
structure SendData where
  bytes : List UInt8
  fits : bytes.length < 2 ^ 32

/-- `int(dataSize)` -/
def SendData.newDataSize (d : SendData) : Int := (BitVec.ofNat 32 d.bytes.length).toInt

/-- The queued remainder: `memcpy` copies from the start of `pData`, and the
recorded length is that of the whole message. -/
def AuthSock.pushRemainder (s : AuthSock) (pData : SendData) (iBytesSent : Int) : AuthSock :=
  let iNewBufferSize := pData.newDataSize - iBytesSent
  { s with sendBufferQueue := s.sendBufferQueue ++
      [(pData.bytes.take iNewBufferSize.toNat, pData.newDataSize.toNat)] }

def AuthSock.sendMsg (s : AuthSock) (choice : SendChoice) (pData : SendData) : Bool × AuthSock :=
  if ¬ pData.newDataSize > 0 then (false, s)
  else if s.sendBufferQueue.isEmpty then
    let (iBytesSent, s) := s.sendFromBuffer choice pData.bytes pData.newDataSize
    if iBytesSent = socketError then (false, s)
    else if iBytesSent = pData.newDataSize then (true, s)
    else (true, s.pushRemainder pData iBytesSent)
  else (true, s.pushRemainder pData 0)

/-- `recv()` on the stream: the first unread bytes, which `MSG_PEEK` leaves
unread; nothing to read counts as zero bytes. -/
def AuthSock.recvToBuffer (s : AuthSock) (fault : Bool) (iBufferSize : ℕ) (bPeek : Bool) :
    Int × AuthSock :=
  match s.pReadBuffer, s.hSocket with
  | none, _ | _, none => (socketError, s)
  | some b, some k =>
      if fault then (socketError, s)
      else
        let data := k.unread.take iBufferSize
        let unread := if bPeek then k.unread else k.unread.drop iBufferSize
        (data.length, { s with
          hSocket := some { k with unread }
          pReadBuffer := some (b.store data) })

end TestCodes.AuthProvider
