import TestCodes.SvrMaster.SvcConfig

/-! The message handlers that come to the player manager, with the messages they
send. `SetPlayerAuthKey(1)` draws a key, which is not 0; `SetPlayerAuthKey(0)`
sets 0. -/
namespace TestCodes.SvrMaster

inductive DBResult where
  | succeed
  | accountPasswordFail
  | other (code : ℕ)
  deriving DecidableEq

inductive ErrorCode where
  | db (result : DBResult)
  | dbDuplicationUserID
  | userNotFound
  | invalidAuthKey
  deriving DecidableEq

inductive Msg where
  | loginResError (key : LKEY) (error : ErrorCode)
  | userGameAuthInfo (uid : UID) (userID userIP : String) (playerAuthKey : UInt64)
      (masterSessionKey : SessionKey)
  | loginResOK (key : LKEY) (uid : UID) (playerAuthKey : UInt64) (accountName : String)
      (server : Option (String × ℕ))
  | gameLoginResError (key : LKEY) (error : ErrorCode)
  | gameLoginResOK (key keySvr : LKEY) (account : String) (uid : UID)
  | communityMoveRes (key keySvr : LKEY) (gidStage : ℕ) (uid : UID) (playerAuthKey : UInt64)
      (serverIP : String) (port : ℕ)
  deriving DecidableEq

/-- What a handler does beside its work on the players; `issue` is
`SetPlayerAuthKey(1)` on the player of the UID. -/
inductive Action where
  | issue (uid : UID)
  | send (pSock : CVSock) (msg : Msg)
  | broadcastShutdown (uid : UID)
  | queryLogout (uid : UID) (recentlyWorldID : Int) (key : LKEY)
  deriving DecidableEq

structure DBQueryLogin where
  nResult : DBResult
  uid : UID
  userID : String
  userIP : String
  recentlyWorldID : Int
  deriving DecidableEq

/-- The messages by their handlers; a query that is no login has no effect. -/
inductive Request where
  | dbQueryRes (keySvr keyUsr : LKEY) (query : Option DBQueryLogin)
  | gameLogOut (accountUID : UID) (key : LKEY)
  | allPlayerInfo (players : List (UID × String))
  | gameLoginReq (uid : UID) (key keySvr : LKEY) (playerAuthKey : UInt64)
  | communityGameLogin (accountUID : UID)
  | shutdownUsr (uid : UID)
  | gameMoveCommunityReq (uid : UID) (key keySvr : LKEY) (gidStage : ℕ) (communitySvrIdx : Int)
  deriving DecidableEq

abbrev Ticket := { key : UInt64 // key ≠ 0 }

/-- The answer of a handler, what it did and the players after it. -/
abbrev Answer (C : Type) := Bool × List Action × Master C

namespace Master
variable {C : Type} (o : Outside C) (cfg : CSvcConfig)

def shutdownUser (uid : UID) (m : Master C) : Option (List Action × Master C) :=
  (m.logOutForce o uid).map fun m => ([.broadcastShutdown uid], m)

/-- The login, and once more behind a shutdown when it is refused. -/
def logInOrKick (now : Int) (query : DBQueryLogin) (keySvr : LKEY) (m : Master C) :
    Option (List Action × Option Ptr × Master C) :=
  match m.logIn o now query.uid query.userID keySvr with
  | (some pPlayer, m) => some ([], some pPlayer, m)
  | (none, m) =>
      if cfg.bKickByDupeLogin then
        (m.shutdownUser o query.uid).map fun (actions, m) =>
          (actions, m.logIn o now query.uid query.userID keySvr)
      else some ([], none, m)

/-- The ticket of a player that has logged in, and the messages that carry it. -/
def issueLogin (ticket : Ticket) (query : DBQueryLogin) (keyUsr : LKEY) (pSock : CVSock)
    (pPlayer : Ptr) (m : Master C) : Option (List Action × Master C) :=
  let pGameServer := cfg.findLowUserGameServer query.recentlyWorldID
  (m.setPlayerAuthKey ticket pPlayer).bind fun m => (m.heap.find pPlayer).map fun player =>
    let toGame := (pGameServer.bind fun server => server.pSock).map fun sock =>
      .send sock (.userGameAuthInfo query.uid query.userID query.userIP player.playerAuthKey
        player.sessionKey)
    let toUser := .send pSock (.loginResOK keyUsr query.uid player.playerAuthKey query.userID
      (pGameServer.map fun server => (server.strExternalIP, server.nExternalPort)))
    (.issue query.uid :: toGame.toList ++ [toUser], m)

/-- `CMsg<eSMH_DBQuery_Res>`. A wrong password is logged and let through, with
whatever UID the query carries. -/
def dbQueryRes (now : Int) (ticket : Ticket) (pFrom : CVSock) (keySvr keyUsr : LKEY)
    (query : DBQueryLogin) (m : Master C) : Option (Answer C) :=
  match cfg.findServerSock keySvr with
  | none => some (false, [], m)
  | some pSock =>
      if (query.uid = o.uidInvalid ∨ query.nResult ≠ .succeed) ∧
          query.nResult ≠ .accountPasswordFail then
        some (true, [.send pFrom (.loginResError keyUsr (.db query.nResult))], m)
      else (m.logInOrKick o cfg now query keySvr).bind fun (kicked, pPlayer, m) =>
        match pPlayer with
        | none =>
            some (false, kicked ++ [.send pFrom (.loginResError keyUsr .dbDuplicationUserID)], m)
        | some pPlayer =>
            (m.issueLogin cfg ticket query keyUsr pSock pPlayer).map fun (actions, m) =>
              (true, kicked ++ actions, m)

/-- `CMsg<eSMH_Game_LogOut>` -/
def gameLogOut (pFrom : CVSock) (accountUID : UID) (key : LKEY) (m : Master C) :
    Option (Answer C) :=
  (m.logOut o accountUID (cfg.findServerKey pFrom)).map fun (found, info, m) =>
    if !found then (false, [], m)
    else if !info.bRemovedResources then (true, [], m)
    else match cfg.findServer info.keyLastAccessedServer with
      | none => (true, [], m)
      | some pInfo =>
          if !pInfo.isType .community then (true, [], m)
          else (true, [.queryLogout accountUID pInfo.nWorldID key], m)

/-- `CMsg<eSMH_Master_Community_All_Player_Info>`: the players in the game are
registered anew, without a ticket. -/
def allPlayerInfo (now : Int) (pFrom : CVSock) (players : List (UID × String)) (m : Master C) :
    Answer C :=
  if players.isEmpty then (false, [], m)
  else (true, [], players.foldl (fun m (uid, account) =>
    if (m.getPlayerByUID uid).isSome then m
    else (m.logIn o now uid account (cfg.findServerKey pFrom)).2) m)

/-- `CMsg<eUMH_Game_Login_Req>`. The ticket is taken before the server is looked
up, and the key is compared as it stands. -/
def gameLoginReq (pFrom : CVSock) (uid : UID) (key keySvr : LKEY) (playerAuthKey : UInt64)
    (m : Master C) : Option (Answer C) :=
  match m.getPlayerByUID uid with
  | none => some (false, [.send pFrom (.gameLoginResError key .userNotFound)], m)
  | some pPlayer => (m.heap.find pPlayer).bind fun player =>
      if player.playerAuthKey ≠ playerAuthKey then
        some (true, [.send pFrom (.gameLoginResError key .invalidAuthKey)], m)
      else (m.setPlayerAuthKey 0 pPlayer).bind fun m => (m.playerCheckIn pPlayer).bind fun m =>
        let keyCommunity := cfg.findServerKey pFrom
        if keyCommunity = o.lkeyInvalid then some (false, [], m)
        else (m.setSvrKey keyCommunity pPlayer).map fun m =>
          (true, [.send pFrom (.gameLoginResOK key keySvr player.accountName player.uid)], m)

/-- `CMsg<eSMH_Community_Game_Login>` -/
def communityGameLogin (pFrom : CVSock) (accountUID : UID) (m : Master C) : Option (Answer C) :=
  match m.getPlayerByUID accountUID with
  | none => some (false, [], m)
  | some pPlayer =>
      let keyCommunity := cfg.findServerKey pFrom
      if keyCommunity = o.lkeyInvalid then some (false, [], m)
      else (m.setSvrKey keyCommunity pPlayer).map fun m => (true, [], m)

/-- `CMsg<eUMH_Game_Move_Community_Req>` -/
def gameMoveCommunityReq (now : Int) (ticket : Ticket) (pFrom : CVSock) (uid : UID)
    (key keySvr : LKEY) (gidStage : ℕ) (communitySvrIdx : Int) (m : Master C) :
    Option (Answer C) :=
  match m.getPlayerByUID uid with
  | none => some (true, [], m)
  | some pPlayer =>
      match cfg.findLowUserGameServer communitySvrIdx with
      | none => some (true, [], m)
      | some pGameServer => (m.reserveMoveSession o now pPlayer).bind fun (reserved, m) =>
          if !reserved then some (true, [], m)
          else (m.setPlayerAuthKey ticket pPlayer).map fun m =>
            (true, [.issue uid, .send pFrom (.communityMoveRes key keySvr gidStage uid ticket
              pGameServer.strExternalIP pGameServer.nExternalPort)], m)

def handler (now : Int) (ticket : Ticket) (pFrom : CVSock) (request : Request) (m : Master C) :
    Option (Answer C) :=
  match request with
  | .dbQueryRes _ _ none => some (true, [], m)
  | .dbQueryRes keySvr keyUsr (some query) =>
      m.dbQueryRes o cfg now ticket pFrom keySvr keyUsr query
  | .gameLogOut accountUID key => m.gameLogOut o cfg pFrom accountUID key
  | .allPlayerInfo players => some (m.allPlayerInfo o cfg now pFrom players)
  | .gameLoginReq uid key keySvr playerAuthKey =>
      m.gameLoginReq o cfg pFrom uid key keySvr playerAuthKey
  | .communityGameLogin accountUID => m.communityGameLogin o cfg pFrom accountUID
  | .shutdownUsr uid => (m.shutdownUser o uid).map fun (actions, m) => (true, actions, m)
  | .gameMoveCommunityReq uid key keySvr gidStage communitySvrIdx =>
      m.gameMoveCommunityReq o cfg now ticket pFrom uid key keySvr gidStage communitySvrIdx

variable {o cfg}

theorem allPlayerInfo_nil (now : Int) (pFrom : CVSock) (m : Master C) :
    (m.allPlayerInfo o cfg now pFrom []).2.2 = m := rfl

theorem allPlayerInfo_cons (now : Int) (pFrom : CVSock) (uid : UID) (account : String)
    (players : List (UID × String)) (m : Master C) :
    (m.allPlayerInfo o cfg now pFrom ((uid, account) :: players)).2.2 =
      ((if (m.getPlayerByUID uid).isSome then m
        else (m.logIn o now uid account (cfg.findServerKey pFrom)).2).allPlayerInfo o cfg now pFrom
          players).2.2 := by
  cases players <;> rfl

/-- A login request changes nothing and is not answered with OK, or it has the
key of its player, takes it and checks the player in. -/
theorem gameLoginReq_cases {pFrom : CVSock} {uid : UID} {key keySvr : LKEY}
    {playerAuthKey : UInt64} {m : Master C} {r : Answer C}
    (h : m.gameLoginReq o cfg pFrom uid key keySvr playerAuthKey = some r) :
    r.2.2 = m ∧ (∃ error, r.2.1 = [.send pFrom (.gameLoginResError key error)]) ∨
    ∃ p player m₁ m₂, m.getPlayerByUID uid = some p ∧ m.heap.find p = some player ∧
      player.playerAuthKey = playerAuthKey ∧ m.setPlayerAuthKey 0 p = some m₁ ∧
      m₁.playerCheckIn p = some m₂ ∧
      (r = (false, [], m₂) ∨ ∃ keyCommunity msg, m₂.setSvrKey keyCommunity p = some r.2.2 ∧
        msg = .gameLoginResOK key keySvr player.accountName player.uid ∧
        r.2.1 = [.send pFrom msg]) := by
  unfold gameLoginReq at h
  split at h
  · obtain rfl := Option.some.inj h
    exact .inl ⟨rfl, _, rfl⟩
  · rename_i p hp
    obtain ⟨player, hl, h⟩ := Option.bind_eq_some_iff.mp h
    split at h
    · obtain rfl := Option.some.inj h
      exact .inl ⟨rfl, _, rfl⟩
    · rename_i hkey
      obtain ⟨m₁, hset, h⟩ := Option.bind_eq_some_iff.mp h
      obtain ⟨m₂, hcheck, h⟩ := Option.bind_eq_some_iff.mp h
      refine .inr ⟨p, player, m₁, m₂, hp, hl, not_not.mp hkey, hset, hcheck, ?_⟩
      simp only at h
      split at h
      · exact .inl (Option.some.inj h).symm
      · obtain ⟨m₃, hsvr, rfl⟩ := Option.map_eq_some_iff.mp h
        exact .inr ⟨_, _, hsvr, rfl, rfl⟩

end Master
end TestCodes.SvrMaster
