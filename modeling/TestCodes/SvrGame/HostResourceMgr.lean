import Mathlib.Data.Finset.Card
import TestCodes.Lib.Machine
import TestCodes.Lib.StdMap
import TestCodes.SvrGame.HostingInfo

/-! `CHostResourceMgr` with its `HostingInfoContainer` and the type indexes. Any
thread posts messages; connections and `Update` belong to the main thread, which
takes the lock of the queue for each message anew. `assert` does nothing in a
release build. -/
namespace TestCodes.SvrGame

inductive ConnectionType where
  | invalid
  | user
  | host
  | dedicatedServer
  deriving DecidableEq

structure CConnection where
  lkey : LKEY
  type : ConnectionType

abbrev Ptr := ℕ

/-- A `CltCon` when the type is `user`, a `HostCon` when it is `host`. -/
structure HostResource where
  address : Ptr
  lkeyConnection : LKEY
  eType : ConnectionType
  deriving DecidableEq

/-- The main thread: outside `Update`, at the head of its loop, or with a message
that it has taken from the queue. -/
inductive MainThread where
  | idle
  | looping (repeatCnt : ℕ)
  | handling (repeatCnt : ℕ) (pMsg : HostingMsg)
  deriving DecidableEq

/-- `cltIndex` and `hostIndex` are the instances of `HRIndex`; `pushed` and `handled`
record what entered the queue and what its operators were called for. -/
structure HostResourceMgr (T : Type) where
  hostableClt : List Ptr
  resourceContainer : StdMap LKEY HostResource
  cltIndex : Finset LKEY
  hostIndex : Finset LKEY
  hostingInfo : T
  msgQueue : List HostingMsg
  main : MainThread
  pushed : List HostingMsg
  handled : List HostingMsg

def HostResourceFactory.create (connection : CConnection) (address : Ptr) : Option HostResource :=
  match connection.type with
  | .user | .host => some ⟨address, connection.lkey, connection.type⟩
  | _ => none

section
variable {T : Type}

namespace HostResourceMgr

def init [HostingTable T] : HostResourceMgr T :=
  ⟨[], ∅, ∅, ∅, HostingTable.empty, [], .idle, [], []⟩

/-- `push_msg`: a message about nothing and an unknown name are dropped. -/
def pushMsg (inv : Invalid) (strMsg : String) (arg1 : GID) (arg2 : LKEY) (s : HostResourceMgr T) :
    HostResourceMgr T :=
  if arg1 = inv.gid ∧ arg2 = inv.lkey then s
  else
    match msgFactory strMsg with
    | none => s
    | some factory =>
        { s with
          msgQueue := s.msgQueue ++ [factory arg1 arg2]
          pushed := s.pushed ++ [factory arg1 arg2] }

def pushHostableClt (cltCon : Ptr) (s : HostResourceMgr T) : HostResourceMgr T :=
  { s with hostableClt := s.hostableClt ++ [cltCon] }

def addToIndex (p : HostResource) (s : HostResourceMgr T) : HostResourceMgr T :=
  match p.eType with
  | .user => { s with cltIndex := insert p.lkeyConnection s.cltIndex }
  | .host => { s with hostIndex := insert p.lkeyConnection s.hostIndex }
  | _ => s

def removeFromIndex (p : HostResource) (s : HostResourceMgr T) : HostResourceMgr T :=
  match p.eType with
  | .user => { s with cltIndex := s.cltIndex.erase p.lkeyConnection }
  | .host => { s with hostIndex := s.hostIndex.erase p.lkeyConnection }
  | _ => s

/-- `EnterAction`; a client is also offered as a host. -/
def enterAction (p : HostResource) (s : HostResourceMgr T) : HostResourceMgr T :=
  match p.eType with
  | .user => (s.addToIndex p).pushHostableClt p.address
  | _ => s.addToIndex p

/-- `LeaveAction`; a client that leaves is announced to the hosting table. -/
def leaveAction (inv : Invalid) (p : HostResource) (s : HostResourceMgr T) : HostResourceMgr T :=
  match p.eType with
  | .user => (s.removeFromIndex p).pushMsg inv "LEAVE_CLIENT" inv.gid p.lkeyConnection
  | _ => s.removeFromIndex p

def createResource (connection : CConnection) (address : Ptr) (s : HostResourceMgr T) :
    HostResourceMgr T :=
  match s.resourceContainer.find connection.lkey with
  | some _ => s
  | none =>
      match HostResourceFactory.create connection address with
      | none => s
      | some p =>
          { s with resourceContainer := s.resourceContainer.set p.lkeyConnection p }.enterAction p

/-- What the resource leaves behind in `m_HostableClt` stays there. -/
def removeResource (inv : Invalid) (lkey : LKEY) (s : HostResourceMgr T) : HostResourceMgr T :=
  match s.resourceContainer.find lkey with
  | none => s
  | some p =>
      { s with resourceContainer := s.resourceContainer.eraseKey lkey }.leaveAction inv p

def connectionDescribed (pConnection : Option CConnection) (address : Ptr) (s : HostResourceMgr T) :
    HostResourceMgr T :=
  match pConnection with
  | none => s
  | some connection => s.createResource connection address

def connectionDisconnected (inv : Invalid) (pConnection : Option CConnection)
    (s : HostResourceMgr T) : HostResourceMgr T :=
  match pConnection with
  | none => s
  | some connection => s.removeResource inv connection.lkey

def getHostCount (s : HostResourceMgr T) : ℕ := s.hostIndex.card

/-- `GetCurtypeConnCnt`, which answers by the class of the resource. -/
def getCurtypeConnCnt (p : HostResource) (s : HostResourceMgr T) : ℕ :=
  match p.eType with
  | .user => s.cltIndex.card
  | _ => s.hostIndex.card

def vacant (address : Ptr) (s : HostResourceMgr T) : Bool :=
  s.resourceContainer.entries.all fun e => e.2.address ≠ address

variable [HostingTable T]

/-- The client that a LEAVE_HOST gives back to the pool: that of the released entry,
when its connection exists and `dynamic_cast` finds a `CltCon` under its key. -/
def returning (inv : Invalid) (isExistConnection : LKEY → Bool) (msg : HostingMsg)
    (s : HostResourceMgr T) : Option HostResource :=
  match msg with
  | .leaveHost gidStage lkeyHost =>
      (HostingTable.leaving s.hostingInfo gidStage lkeyHost).bind fun info =>
        if inv.lkey ≠ info.lkeyCltConn ∧ isExistConnection info.lkeyCltConn then
          (s.resourceContainer.find info.lkeyCltConn).filter fun p => p.eType = .user
        else none
  | _ => none

/-- `(*pMsg)(*this)` -/
def handle (inv : Invalid) (isExistConnection : LKEY → Bool) (msg : HostingMsg)
    (s : HostResourceMgr T) : HostResourceMgr T :=
  { s with
    hostableClt := s.hostableClt ++ ((s.returning inv isExistConnection msg).map
      HostResource.address).toList
    hostingInfo := msg.apply inv s.hostingInfo
    handled := s.handled ++ [msg] }

end HostResourceMgr
end

/-- `pushMsg` is made by any thread, the others by the main thread. `address` is
where a resource is allocated, `isExistConnection` what `ConnectionManager` answers. -/
inductive Event where
  | pushMsg (strMsg : String) (arg1 : GID) (arg2 : LKEY)
  | connectionDescribed (pConnection : Option CConnection) (address : Ptr)
  | connectionDisconnected (pConnection : Option CConnection)
  | update
  | pop
  | handle (isExistConnection : LKEY → Bool)

def Event.ofUpdate : Event → Bool
  | .update | .pop | .handle _ => true
  | _ => false

section
variable {T : Type}

/-- One step. The main thread does one thing after another, and memory that is in
use is not allocated again. -/
def HostResourceMgr.step [HostingTable T] (inv : Invalid) (s : HostResourceMgr T) :
    Event → Option (HostResourceMgr T)
  | .pushMsg strMsg arg1 arg2 => some (s.pushMsg inv strMsg arg1 arg2)
  | .connectionDescribed pConnection address =>
      if s.main = .idle ∧ s.vacant address then some (s.connectionDescribed pConnection address)
      else none
  | .connectionDisconnected pConnection =>
      if s.main = .idle then some (s.connectionDisconnected inv pConnection) else none
  | .update =>
      match s.main with
      | .idle => some (if s.msgQueue = [] then s else { s with main := .looping 100 })
      | _ => none
  | .pop =>
      match s.main with
      | .looping repeatCnt =>
          -- `--repeatCnt > 0`, then the section under the lock
          if repeatCnt - 1 = 0 then some { s with main := .idle }
          else
            match s.msgQueue with
            | [] => some { s with main := .idle }
            | pMsg :: msgQueue =>
                some { s with msgQueue, main := .handling (repeatCnt - 1) pMsg }
      | _ => none
  | .handle isExistConnection =>
      match s.main with
      | .handling repeatCnt pMsg =>
          some { s.handle inv isExistConnection pMsg with main := .looping repeatCnt }
      | _ => none

def MainThread.hand : MainThread → List HostingMsg
  | .handling _ pMsg => [pMsg]
  | _ => []

/-- What has entered the queue and has no effect yet. -/
def HostResourceMgr.pending (s : HostResourceMgr T) : List HostingMsg := s.main.hand ++ s.msgQueue

/-- `LeaveAction` of a client under the invalid key is a message about nothing. -/
def leaveMsgs (inv : Invalid) (lkey : LKEY) : List HostingMsg :=
  if lkey = inv.lkey then [] else [.leaveClient lkey]

namespace HostResourceMgr

def post (msgs : List HostingMsg) (s : HostResourceMgr T) : HostResourceMgr T :=
  { s with msgQueue := s.msgQueue ++ msgs, pushed := s.pushed ++ msgs }

theorem post_nil (s : HostResourceMgr T) : s.post [] = s := by
  simp only [post, List.append_nil]

theorem pushMsg_leaveClient (inv : Invalid) (lkey : LKEY) (s : HostResourceMgr T) :
    s.pushMsg inv "LEAVE_CLIENT" inv.gid lkey = s.post (leaveMsgs inv lkey) := by
  unfold pushMsg leaveMsgs
  by_cases h : lkey = inv.lkey
  · rw [if_pos ⟨rfl, h⟩, if_pos h, post_nil]
  · rw [if_neg fun hand => h hand.2, if_neg h]
    rfl

variable {s s' : HostResourceMgr T}

theorem pending_handling {repeatCnt : ℕ} {pMsg : HostingMsg}
    (hmain : s.main = .handling repeatCnt pMsg) : s.pending = pMsg :: s.msgQueue := by
  rw [pending, hmain]
  rfl

theorem pending_idle (hmain : s.main = .idle) : s.pending = s.msgQueue := by
  rw [pending, hmain]
  rfl

theorem pending_looping {repeatCnt : ℕ} (hmain : s.main = .looping repeatCnt) :
    s.pending = s.msgQueue := by
  rw [pending, hmain]
  rfl

theorem pending_popped {repeatCnt n : ℕ} {pMsg : HostingMsg} {msgQueue : List HostingMsg}
    (hmain : s.main = .looping repeatCnt) (hqueue : s.msgQueue = pMsg :: msgQueue) :
    pending { s with msgQueue, main := .handling n pMsg } = s.pending := by
  rw [pending_looping hmain, hqueue]
  rfl

theorem removeResource_client (inv : Invalid) {k : LKEY} {p : HostResource}
    (hp : s.resourceContainer.find k = some p) (htype : p.eType = .user) :
    s.removeResource inv k =
      { s with
        resourceContainer := s.resourceContainer.eraseKey k
        cltIndex := s.cltIndex.erase p.lkeyConnection }.post (leaveMsgs inv p.lkeyConnection) := by
  simp only [removeResource, hp, leaveAction, removeFromIndex, htype, pushMsg_leaveClient]

theorem removeResource_other (inv : Invalid) {k : LKEY} {p : HostResource}
    (hp : s.resourceContainer.find k = some p) (htype : p.eType ≠ .user) :
    s.removeResource inv k =
      { s with
        resourceContainer := s.resourceContainer.eraseKey k
        hostIndex := if p.eType = .host then s.hostIndex.erase p.lkeyConnection
          else s.hostIndex } := by
  simp only [removeResource, hp]
  cases hother : p.eType with
  | user => exact absurd hother htype
  | host => simp only [leaveAction, removeFromIndex, hother, ↓reduceIte]
  | invalid | dedicatedServer =>
      simp only [leaveAction, removeFromIndex, hother, reduceCtorEq, ↓reduceIte]

variable [HostingTable T]

inductive Effect (inv : Invalid) (s : HostResourceMgr T) : Event → HostResourceMgr T → Prop
  | same {e : Event} : e.ofUpdate = false → Effect inv s e s
  | posted {strMsg : String} {arg1 : GID} {arg2 : LKEY} {factory : GID → LKEY → HostingMsg} :
      msgFactory strMsg = some factory →
      Effect inv s (.pushMsg strMsg arg1 arg2) (s.post [factory arg1 arg2])
  | clientEntered {c : CConnection} {address : Ptr} : c.type = .user →
      s.resourceContainer.find c.lkey = none → s.vacant address = true →
      Effect inv s (.connectionDescribed (some c) address)
        { s with
          resourceContainer := s.resourceContainer.set c.lkey ⟨address, c.lkey, .user⟩
          cltIndex := insert c.lkey s.cltIndex
          hostableClt := s.hostableClt ++ [address] }
  | hostEntered {c : CConnection} {address : Ptr} : c.type = .host →
      s.resourceContainer.find c.lkey = none → s.vacant address = true →
      Effect inv s (.connectionDescribed (some c) address)
        { s with
          resourceContainer := s.resourceContainer.set c.lkey ⟨address, c.lkey, .host⟩
          hostIndex := insert c.lkey s.hostIndex }
  | clientLeft {c : CConnection} {p : HostResource} :
      s.resourceContainer.find c.lkey = some p → p.eType = .user →
      Effect inv s (.connectionDisconnected (some c))
        ({ s with
          resourceContainer := s.resourceContainer.eraseKey c.lkey
          cltIndex := s.cltIndex.erase p.lkeyConnection }.post (leaveMsgs inv p.lkeyConnection))
  | otherLeft {c : CConnection} {p : HostResource} :
      s.resourceContainer.find c.lkey = some p → p.eType ≠ .user →
      Effect inv s (.connectionDisconnected (some c))
        { s with
          resourceContainer := s.resourceContainer.eraseKey c.lkey
          hostIndex := if p.eType = .host then s.hostIndex.erase p.lkeyConnection
            else s.hostIndex }
  | unneeded : s.main = .idle → s.msgQueue = [] → Effect inv s .update s
  | begun : s.main = .idle → s.msgQueue ≠ [] →
      Effect inv s .update { s with main := .looping 100 }
  | ended {repeatCnt : ℕ} : s.main = .looping repeatCnt →
      repeatCnt ≤ 1 ∨ s.msgQueue = [] → Effect inv s .pop { s with main := .idle }
  | popped {repeatCnt : ℕ} {pMsg : HostingMsg} {msgQueue : List HostingMsg} :
      s.main = .looping repeatCnt → ¬ repeatCnt ≤ 1 → s.msgQueue = pMsg :: msgQueue →
      Effect inv s .pop { s with msgQueue, main := .handling (repeatCnt - 1) pMsg }
  | handled {isExistConnection : LKEY → Bool} {repeatCnt : ℕ} {pMsg : HostingMsg} :
      s.main = .handling repeatCnt pMsg →
      Effect inv s (.handle isExistConnection)
        { s.handle inv isExistConnection pMsg with main := .looping repeatCnt }

variable {inv : Invalid}

theorem pushMsg_cases (inv : Invalid) (strMsg : String) (arg1 : GID) (arg2 : LKEY)
    (s : HostResourceMgr T) :
    Effect inv s (.pushMsg strMsg arg1 arg2) (s.pushMsg inv strMsg arg1 arg2) := by
  unfold pushMsg
  split
  · exact .same rfl
  · split
    · exact .same rfl
    · exact .posted ‹_›

theorem createResource_cases (inv : Invalid) (c : CConnection) {address : Ptr}
    (h : s.vacant address = true) :
    Effect inv s (.connectionDescribed (some c) address) (s.createResource c address) := by
  unfold createResource
  split
  · exact .same rfl
  · rename_i hnone
    cases htype : c.type with
    | user =>
        simp only [HostResourceFactory.create, htype]
        exact .clientEntered htype hnone h
    | host =>
        simp only [HostResourceFactory.create, htype]
        exact .hostEntered htype hnone h
    | invalid | dedicatedServer =>
        simp only [HostResourceFactory.create, htype]
        exact .same rfl

theorem removeResource_cases (inv : Invalid) (c : CConnection) (s : HostResourceMgr T) :
    Effect inv s (.connectionDisconnected (some c)) (s.removeResource inv c.lkey) := by
  cases hp : s.resourceContainer.find c.lkey with
  | none =>
      simp only [removeResource, hp]
      exact .same rfl
  | some p =>
      by_cases htype : p.eType = .user
      · rw [removeResource_client inv hp htype]
        exact .clientLeft hp htype
      · rw [removeResource_other inv hp htype]
        exact .otherLeft hp htype

theorem step_cases {e : Event} (h : s.step inv e = some s') : Effect inv s e s' := by
  cases e with
  | pushMsg strMsg arg1 arg2 => exact Option.some.inj h ▸ pushMsg_cases inv strMsg arg1 arg2 s
  | connectionDescribed pConnection address =>
      simp only [step] at h
      split at h
      · rename_i hidle
        obtain rfl := Option.some.inj h
        cases pConnection with
        | none => exact .same rfl
        | some c => exact createResource_cases inv c hidle.2
      · cases h
  | connectionDisconnected pConnection =>
      simp only [step] at h
      split at h
      · obtain rfl := Option.some.inj h
        cases pConnection with
        | none => exact .same rfl
        | some c => exact removeResource_cases inv c s
      · cases h
  | update =>
      simp only [step] at h
      split at h
      · rename_i hidle
        obtain rfl := Option.some.inj h
        by_cases hempty : s.msgQueue = []
        · rw [if_pos hempty]
          exact .unneeded hidle hempty
        · rw [if_neg hempty]
          exact .begun hidle hempty
      · cases h
  | pop =>
      simp only [step] at h
      split at h
      · rename_i repeatCnt hlooping
        split at h
        · exact Option.some.inj h ▸ .ended hlooping (.inl (by omega))
        · split at h
          · exact Option.some.inj h ▸ .ended hlooping (.inr ‹_›)
          · exact Option.some.inj h ▸ .popped hlooping (by omega) ‹_›
      · cases h
  | handle isExistConnection =>
      simp only [step] at h
      split at h
      · exact Option.some.inj h ▸ .handled ‹_›
      · cases h

end HostResourceMgr
end
end TestCodes.SvrGame
