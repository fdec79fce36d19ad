import TestCodes.SvrMaster.PlayerManager

/-! The part of `CSvcConfig` that the handlers ask: the live servers and the
choice of a game server. -/
namespace TestCodes.SvrMaster

abbrev CVSock := ℕ

inductive ESvrType where
  | community
  | game
  deriving DecidableEq

/-- What is read of a server; `isType` is `IsType`, which is not in the repository. -/
structure ServerFields where
  key : LKEY
  pSock : Option CVSock
  nWorldID : Int
  nCurPlayer : Int
  strExternalIP : String
  nExternalPort : ℕ
  isType : ESvrType → Bool

structure CServerInfo extends ServerFields where
  vecChildren : List (Option ServerFields)

/-- `m_vecLiveServer` in the order of `ForEach`, each server by its slot. -/
structure CSvcConfig where
  vecLiveServer : List (LKEY × CServerInfo)
  bKickByDupeLogin : Bool

namespace CSvcConfig

def findServer (cfg : CSvcConfig) (key : LKEY) : Option CServerInfo := cfg.vecLiveServer.lookup key

/-- `FindServer(CVSock*)` -/
def findServerOf (cfg : CSvcConfig) (pSock : CVSock) : Option CServerInfo :=
  (cfg.vecLiveServer.map Prod.snd).find? fun server => server.pSock == some pSock

/-- No server answers `NULL`, which is the key 0. -/
def findServerKey (cfg : CSvcConfig) (pSock : CVSock) : LKEY :=
  match cfg.findServerOf pSock with
  | none => 0
  | some server => server.key

def findServerSock (cfg : CSvcConfig) (key : LKEY) : Option CVSock :=
  (cfg.findServer key).bind fun server => server.pSock

def findSvrTypeSvrList (cfg : CSvcConfig) (type : ESvrType) : List CServerInfo :=
  (cfg.vecLiveServer.map Prod.snd).filter fun server => server.isType type

/-- One child in the loop: only connected game servers count, and a later one
wins with fewer players only. -/
def lowUser (pServer : Option ServerFields) : Option ServerFields → Option ServerFields
  | none => pServer
  | some now =>
      if !now.isType .game then pServer
      else if now.pSock.isNone then pServer
      else match pServer with
        | none => some now
        | some best => if now.nCurPlayer < best.nCurPlayer then some now else pServer

def findLowUserGameServer (cfg : CSvcConfig) (nWorldID : Int) : Option ServerFields :=
  (cfg.findSvrTypeSvrList .community).foldl (fun pServer community =>
    if nWorldID = community.nWorldID then community.vecChildren.foldl lowUser pServer
    else pServer) none

end CSvcConfig
end TestCodes.SvrMaster
