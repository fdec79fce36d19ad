import TestCodes.Lib.Slots

/-! The zone message dispatcher: a vector of handlers by message id. A registration binds
a trampoline that splits the message into its struct and what stands behind it. The two
copies of the class differ in the type in which a handler gets the extra size, and in the
handlers that they take. -/
namespace TestCodes.ZoneMsg

abbrev BOOL := Int32

def FALSE : BOOL := 0

/-- A `char*` that is not null. -/
structure CharPtr where
  block : ℕ
  offset : ℕ
  deriving DecidableEq

def CharPtr.add (p : CharPtr) (n : ℕ) : CharPtr := { p with offset := p.offset + n }

/-- The classes of the game, and `dynamic_cast<CVtZoneServer*>`. -/
structure GameTypes where
  CVtZoneBase : Type
  CVtZoneServer : Type
  CVSock : Type
  CPlayerChar : Type
  zoneServer : CVtZoneBase → Option CVtZoneServer

/-- What a handler gets besides the message and the extra part, by its shape. -/
inductive Args (G : GameTypes)
  | callOriginal (pFrom : Option G.CVSock)
  | call3 (pSvr : Option G.CVtZoneBase)
  | call4 (pSvr : Option G.CVtZoneBase) (pFrom : Option G.CVSock)
  | recipient (pRecipient : G.CPlayerChar)

/-- The call of a handler: `Fp` names the handlers, `Size` is the type of the extra size. -/
structure Call (G : GameTypes) (Fp Size : Type) where
  fpCall : Fp
  args : Args G
  pMsg : CharPtr
  pExtra : Option CharPtr
  extraSize : Size

/-- The game at the time of a dispatch: who plays over a socket, and what the handlers
return. -/
structure GameWorld (G : GameTypes) (Fp Size : Type) where
  getPlayerCharBySock : G.CVtZoneServer → G.CVSock → Option G.CPlayerChar
  handler : Call G Fp Size → BOOL

section
variable {G : GameTypes} {Fp Size : Type}

abbrev Outcome (G : GameTypes) (Fp Size : Type) := BOOL × List (Call G Fp Size)

def refused : Outcome G Fp Size := (FALSE, [])

/-- A bound trampoline, that is what `FnMsgHandler` holds. -/
abbrev FnMsgHandler (G : GameTypes) (Fp Size : Type) :=
  GameWorld G Fp Size → Option G.CVSock → CharPtr → UInt32 → Outcome G Fp Size

structure CZoneMsgDispatcher (G : GameTypes) (Fp Size : Type) where
  vecHandlers : Slots (FnMsgHandler G Fp Size)
  pOwner : Option G.CVtZoneBase

namespace CZoneMsgDispatcher

def new (pOwner : Option G.CVtZoneBase) : CZoneMsgDispatcher G Fp Size := ⟨[], pOwner⟩

def dispatch (d : CZoneMsgDispatcher G Fp Size) (world : GameWorld G Fp Size)
    (pFrom : Option G.CVSock) (wID : UInt16) (pMsg : CharPtr) (dwMsgSize : UInt32) :
    Outcome G Fp Size :=
  if h : wID.toNat < d.vecHandlers.length then
    match d.vecHandlers[wID.toNat] with
    | none => refused
    | some f => f world pFrom pMsg dwMsgSize
  else refused

/-- The private `Register`; `none` is the failed assertion that the slot is empty. -/
def register (d : CZoneMsgDispatcher G Fp Size) (wID : UInt16) (f : FnMsgHandler G Fp Size) :
    Option (CZoneMsgDispatcher G Fp Size) :=
  (d.vecHandlers.register wID.toNat f).map fun vecHandlers => { d with vecHandlers }

end CZoneMsgDispatcher

/-- `pExtra`: behind the struct, if there is more than the struct. -/
def CharPtr.extra (pMsg : CharPtr) (sizeofTMsg dwMsgSize : UInt32) : Option CharPtr :=
  if dwMsgSize > sizeofTMsg then some (pMsg.add sizeofTMsg.toNat) else none

/-- The body that the trampolines share. `args` is what they hand on; a recipient may be
missing. `cast` is the conversion of the extra size to the handler's parameter. -/
def trampoline (cast : UInt32 → Size)
    (args : GameWorld G Fp Size → Option G.CVSock → Option (Args G)) (fpCall : Fp)
    (sizeofTMsg : UInt32) : FnMsgHandler G Fp Size :=
  fun world pFrom pMsg dwMsgSize =>
    if dwMsgSize < sizeofTMsg then refused
    else
      match args world pFrom with
      | none => refused
      | some args =>
          let pExtra := pMsg.extra sizeofTMsg dwMsgSize
          let call := ⟨fpCall, args, pMsg, pExtra, cast (dwMsgSize - sizeofTMsg)⟩
          (world.handler call, [call])

/-- `GetRecipient`: the owner has to be a zone server, and there has to be a socket. -/
def getRecipient (world : GameWorld G Fp Size) (pZone : Option G.CVtZoneBase)
    (pSock : Option G.CVSock) : Option G.CPlayerChar :=
  match pZone.bind G.zoneServer with
  | none => none
  | some pZoneServer =>
      match pSock with
      | none => none
      | some pSock => world.getPlayerCharBySock pZoneServer pSock

variable (cast : UInt32 → Size) (pSvr : Option G.CVtZoneBase)

def trampolineOriginal : Fp → UInt32 → FnMsgHandler G Fp Size :=
  trampoline cast fun _ pFrom => some (.callOriginal pFrom)

def trampolineCall3 : Fp → UInt32 → FnMsgHandler G Fp Size :=
  trampoline cast fun _ _ => some (.call3 pSvr)

def trampolineCall4 : Fp → UInt32 → FnMsgHandler G Fp Size :=
  trampoline cast fun _ pFrom => some (.call4 pSvr pFrom)

def trampolineRecipient : Fp → UInt32 → FnMsgHandler G Fp Size :=
  trampoline cast fun world pFrom => (getRecipient world pSvr pFrom).map .recipient

end

/-- One call of a `Register`: the handler, its shape, the size of its message type. -/
structure Registration (Shape Fp : Type) where
  fpCall : Fp
  shape : Shape
  sizeofTMsg : UInt32
  wID : UInt16

/-- The overloads of `Register` for the message's own handlers. -/
inductive CallShape
  | call3
  | call4

/-- The shapes of the 20140520 copy. -/
inductive Shape
  | callOriginal
  | call (shape : CallShape)
  | recipient

section
variable {G : GameTypes} {Fp Size : Type}

def CallShape.trampoline (cast : UInt32 → Size) (pSvr : Option G.CVtZoneBase) :
    CallShape → Fp → UInt32 → FnMsgHandler G Fp Size
  | .call3 => trampolineCall3 cast pSvr
  | .call4 => trampolineCall4 cast pSvr

def Shape.trampoline (cast : UInt32 → Size) (pSvr : Option G.CVtZoneBase) :
    Shape → Fp → UInt32 → FnMsgHandler G Fp Size
  | .callOriginal => trampolineOriginal cast
  | .call shape => shape.trampoline cast pSvr
  | .recipient => trampolineRecipient cast pSvr

namespace CZoneMsgDispatcher
variable {Shape : Type}

/-- A `Register` binds the trampoline of the shape to the owner. -/
def registerMsg (bound : Option G.CVtZoneBase → Shape → Fp → UInt32 → FnMsgHandler G Fp Size)
    (d : CZoneMsgDispatcher G Fp Size) (r : Registration Shape Fp) :
    Option (CZoneMsgDispatcher G Fp Size) :=
  d.register r.wID (bound d.pOwner r.shape r.fpCall r.sizeofTMsg)

def registered (bound : Option G.CVtZoneBase → Shape → Fp → UInt32 → FnMsgHandler G Fp Size)
    (pOwner : Option G.CVtZoneBase) (regs : List (Registration Shape Fp)) :
    Option (CZoneMsgDispatcher G Fp Size) :=
  Machine.run (registerMsg bound) (.new pOwner) regs

end CZoneMsgDispatcher
end

section
variable {G : GameTypes} {Fp : Type}

/-- The 20140520 copy hands a `DWORD` on as it is. -/
def registered20140520 (pOwner : Option G.CVtZoneBase) (regs : List (Registration Shape Fp)) :
    Option (CZoneMsgDispatcher G Fp UInt32) :=
  CZoneMsgDispatcher.registered (Shape.trampoline id) pOwner regs

/-- The TestUnitsNew copy casts the extra size to a `WORD`. -/
def registeredTestUnitsNew (pOwner : Option G.CVtZoneBase)
    (regs : List (Registration CallShape Fp)) : Option (CZoneMsgDispatcher G Fp UInt16) :=
  CZoneMsgDispatcher.registered (CallShape.trampoline UInt32.toUInt16) pOwner regs

end
end TestCodes.ZoneMsg
