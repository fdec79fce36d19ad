import TestCodes.Lib.StdMap
import TestCodes.SvrMaster.SessionValidator

/-! `CPlayerManager` with the players it allocates, and the tick of the session
validator. A step that reads a deleted player has no result. -/
namespace TestCodes.SvrMaster

abbrev UID := ℕ
abbrev LKEY := ℕ

/-- The address of a player object. Addresses are not used again, so that an
address stands for one object and a deleted player can be told from a new one. -/
abbrev Ptr := ℕ

structure CPlayer where
  uid : UID
  accountName : String
  svrKey : LKEY
  sessionKey : SessionKey
  playerAuthKey : UInt64
  key : LKEY
  deriving DecidableEq

/-- What stands outside the repository: constants, the values a constructor of
`CPlayer` leaves, and the container `VecPlayerID` that the manager derives from. -/
structure Outside (C : Type) where
  uidInvalid : UID
  lkeyInvalid : LKEY
  invalidKey : LKEY
  authKeyExpireTimePeriod : Int
  newPlayer : CPlayer
  set : C → Ptr → LKEY × C
  del : C → LKEY → C
  get : C → LKEY → Option Ptr

/-- Sixty seconds to check in, and a container that hands out keys in turn. -/
def Outside.plain : Outside (StdMap LKEY Ptr) where
  uidInvalid := 0
  lkeyInvalid := 0
  invalidKey := 0
  authKeyExpireTimePeriod := 60
  newPlayer := ⟨0, "", 0, 0, 0, 0⟩
  set c p := (p + 1, c.set (p + 1) p)
  del c key := c.eraseKey key
  get c key := c.find key

structure Master (C : Type) where
  validator : CSessionValidator
  nPlayerCount : Int
  mapUserUID : StdMap UID Ptr
  mapUserAccount : StdMap String Ptr
  mapUserSession : StdMap SessionKey Ptr
  vecPlayerID : C
  /-- The players that are not deleted. -/
  heap : StdMap Ptr CPlayer
  nextPtr : Ptr

/-- The calls the handlers make, those on a player by the UID it is found under. -/
inductive Op where
  | logIn (uid : UID) (account : String) (keySvr : LKEY)
  | playerCheckIn (uid : UID)
  | reserveMoveSession (uid : UID)
  | logOut (uid : UID) (sender : LKEY)
  | logOutForce (uid : UID)
  | expireSession (key : SessionKey)
  | tickProcess
  | setPlayerAuthKey (uid : UID) (key : UInt64)
  | setSvrKey (uid : UID) (key : LKEY)
  deriving DecidableEq

/-- A call at the time that `::time()` answers in it. -/
structure Event where
  time : Int
  op : Op
  deriving DecidableEq

namespace Master
variable {C : Type}

def init (vecPlayerID : C) : Master C := ⟨.init, 0, ∅, ∅, ∅, vecPlayerID, ∅, 0⟩

def getPlayerByUID (m : Master C) (uid : UID) : Option Ptr := m.mapUserUID.find uid

def getPlayerByAccount (m : Master C) (account : String) : Option Ptr :=
  m.mapUserAccount.find account

def getPlayerByLKEY (o : Outside C) (m : Master C) (key : LKEY) : Option Ptr :=
  o.get m.vecPlayerID key

/-- The player `LogIn` allocates. `AddPlayer` sets no key when the container
gave none. -/
def newPlayer (o : Outside C) (uid : UID) (account : String) (keySvr : LKEY) (m : Master C) :
    CPlayer :=
  let keyValue := (o.set m.vecPlayerID m.nextPtr).1
  { o.newPlayer with
    uid, accountName := account, svrKey := keySvr, sessionKey := m.validator.nextKey
    key := if keyValue = o.invalidKey then o.newPlayer.key else keyValue }

/-- The part of `LogIn` behind the checks for duplicates. -/
def logInUpdate (o : Outside C) (now : Int) (uid : UID) (account : String) (keySvr : LKEY)
    (m : Master C) : Master C :=
  let pPlayer := m.nextPtr
  let (sessionKey, validator) := m.validator.pushSession o.authKeyExpireTimePeriod now
  { m with
    validator
    nPlayerCount := m.nPlayerCount + 1
    mapUserUID := m.mapUserUID.insertNew uid pPlayer
    mapUserAccount := m.mapUserAccount.insertNew account pPlayer
    mapUserSession := m.mapUserSession.insertNew sessionKey pPlayer
    vecPlayerID := (o.set m.vecPlayerID pPlayer).2
    heap := m.heap.set pPlayer (m.newPlayer o uid account keySvr)
    nextPtr := m.nextPtr + 1 }

def logIn (o : Outside C) (now : Int) (uid : UID) (account : String) (keySvr : LKEY)
    (m : Master C) : Option Ptr × Master C :=
  if (m.getPlayerByUID uid).isSome then (none, m)
  else if (m.getPlayerByAccount account).isSome then (none, m)
  else (some m.nextPtr, m.logInUpdate o now uid account keySvr)

/-- A player under `UID_INVALID` stays in the UID map; the wait list is left to
expire. -/
def logOutUpdate (o : Outside C) (pPlayer : Ptr) (player : CPlayer) (m : Master C) : Master C :=
  { m with
    mapUserUID :=
      if player.uid ≠ o.uidInvalid then m.mapUserUID.eraseKey player.uid else m.mapUserUID
    mapUserAccount := m.mapUserAccount.eraseKey player.accountName
    mapUserSession := m.mapUserSession.eraseKey player.sessionKey
    vecPlayerID :=
      if player.key = o.lkeyInvalid then m.vecPlayerID else o.del m.vecPlayerID player.key
    nPlayerCount := m.nPlayerCount - 1
    heap := m.heap.eraseKey pPlayer }

/-- `LogOut(CPlayer&)` -/
def logOutPlayer (o : Outside C) (pPlayer : Ptr) (m : Master C) : Option (Master C) :=
  (m.heap.find pPlayer).map fun player => m.logOutUpdate o pPlayer player

structure LogoutInformation where
  bRemovedResources : Bool
  keyLastAccessedServer : LKEY
  deriving DecidableEq

/-- `LogOut(uid, pSock)`, `sender` being what `FindServerKey(pSock)` answers.
Only the server the player is on removes it, and not while a ticket is open. -/
def logOut (o : Outside C) (uid : UID) (sender : LKEY) (m : Master C) :
    Option (Bool × LogoutInformation × Master C) :=
  match m.getPlayerByUID uid with
  | none => some (false, ⟨false, o.lkeyInvalid⟩, m)
  | some pPlayer => (m.heap.find pPlayer).bind fun player =>
      let keyLastAccessedServer := player.svrKey
      if sender ≠ player.svrKey then some (true, ⟨false, keyLastAccessedServer⟩, m)
      else if player.playerAuthKey ≠ 0 then some (true, ⟨false, keyLastAccessedServer⟩, m)
      else (m.logOutPlayer o pPlayer).map fun m => (true, ⟨true, keyLastAccessedServer⟩, m)

def logOutForce (o : Outside C) (uid : UID) (m : Master C) : Option (Master C) :=
  match m.getPlayerByUID uid with
  | none => some m
  | some pPlayer => m.logOutPlayer o pPlayer

def expireSession (o : Outside C) (key : SessionKey) (m : Master C) : Option (Master C) :=
  match m.mapUserSession.find key with
  | none => some m
  | some pPlayer => m.logOutPlayer o pPlayer

def playerCheckInUpdate (player : CPlayer) (m : Master C) : Master C :=
  { m with
    validator := m.validator.eraseSession player.sessionKey
    mapUserSession := m.mapUserSession.eraseKey player.sessionKey }

def playerCheckIn (pPlayer : Ptr) (m : Master C) : Option (Master C) :=
  (m.heap.find pPlayer).map fun player => m.playerCheckInUpdate player

/-- The entry under the player's last key is not looked for. -/
def reserveMoveSessionUpdate (o : Outside C) (now : Int) (pPlayer : Ptr) (player : CPlayer)
    (m : Master C) : Master C :=
  let (sessionKey, validator) := m.validator.pushSession o.authKeyExpireTimePeriod now
  { m with
    validator
    mapUserSession := m.mapUserSession.insertNew sessionKey pPlayer
    heap := m.heap.set pPlayer { player with sessionKey } }

/-- `false` when the new key had an entry already. -/
def reserveMoveSession (o : Outside C) (now : Int) (pPlayer : Ptr) (m : Master C) :
    Option (Bool × Master C) :=
  (m.heap.find pPlayer).map fun player =>
    ((m.mapUserSession.find m.validator.nextKey).isNone,
      m.reserveMoveSessionUpdate o now pPlayer player)

def setPlayer (f : CPlayer → CPlayer) (pPlayer : Ptr) (m : Master C) : Option (Master C) :=
  (m.heap.find pPlayer).map fun player => { m with heap := m.heap.set pPlayer (f player) }

def setPlayerAuthKey (key : UInt64) : Ptr → Master C → Option (Master C) :=
  setPlayer fun player => { player with playerAuthKey := key }

def setSvrKey (key : LKEY) : Ptr → Master C → Option (Master C) :=
  setPlayer fun player => { player with svrKey := key }

def popFront (m : Master C) : Master C :=
  { m with validator := { m.validator with
      listWaitSessions := m.validator.listWaitSessions.tail } }

/-- The loop of `TickProcess`. `ExpireSession` does not touch the list, so that
the sessions come in the order in which the list stood. -/
def tickSessions (o : Outside C) (timeCur : Int) : List Session → Master C → Option (Master C)
  | [], m => some m
  | current :: rest, m =>
      if current.timeExpiration > timeCur then some m
      else (m.expireSession o current.sessionKey).bind fun m => tickSessions o timeCur rest m.popFront

def tickProcess (o : Outside C) (timeCur : Int) (m : Master C) : Option (Master C) :=
  tickSessions o timeCur m.validator.listWaitSessions m

def onPlayer (uid : UID) (f : Ptr → Master C → Option (Master C)) (m : Master C) :
    Option (Master C) :=
  match m.getPlayerByUID uid with
  | none => some m
  | some pPlayer => f pPlayer m

def step (o : Outside C) (m : Master C) (e : Event) : Option (Master C) :=
  match e.op with
  | .logIn uid account keySvr => some (m.logIn o e.time uid account keySvr).2
  | .playerCheckIn uid => m.onPlayer uid playerCheckIn
  | .reserveMoveSession uid =>
      m.onPlayer uid fun pPlayer m => (m.reserveMoveSession o e.time pPlayer).map Prod.snd
  | .logOut uid sender => (m.logOut o uid sender).map fun r => r.2.2
  | .logOutForce uid => m.logOutForce o uid
  | .expireSession key => m.expireSession o key
  | .tickProcess => m.tickProcess o e.time
  | .setPlayerAuthKey uid key => m.onPlayer uid (setPlayerAuthKey key)
  | .setSvrKey uid key => m.onPlayer uid (setSvrKey key)

/-- The player the call would log out; for a tick, see `tickSessions`. -/
def leaver (m : Master C) : Op → Option Ptr
  | .logOut uid sender => (m.getPlayerByUID uid).filter fun pPlayer =>
      (m.heap.find pPlayer).any fun player =>
        sender == player.svrKey && player.playerAuthKey == 0
  | .logOutForce uid => m.getPlayerByUID uid
  | .expireSession key => m.mapUserSession.find key
  | _ => none

/-- The player whose session the call changes: a key is issued to it at a time,
or its key is checked in. -/
def sessionCall (m : Master C) (e : Event) : Option (Ptr × Option Int) :=
  match e.op with
  | .logIn uid account _ =>
      if m.getPlayerByUID uid = none ∧ m.getPlayerByAccount account = none then
        some (m.nextPtr, some e.time) else none
  | .reserveMoveSession uid => (m.getPlayerByUID uid).map fun p => (p, some e.time)
  | .playerCheckIn uid => (m.getPlayerByUID uid).map fun p => (p, none)
  | _ => none

inductive Effect (o : Outside C) (m : Master C) (e : Event) : Master C → Prop
  | same : m.sessionCall e = none → Effect o m e m
  | loggedIn {uid : UID} {account : String} {keySvr : LKEY} :
      e.op = .logIn uid account keySvr → m.sessionCall e = some (m.nextPtr, some e.time) →
      m.getPlayerByUID uid = none → m.getPlayerByAccount account = none →
      Effect o m e (m.logInUpdate o e.time uid account keySvr)
  | checkedIn {uid : UID} {p : Ptr} {player : CPlayer} : e.op = .playerCheckIn uid →
      m.sessionCall e = some (p, none) → m.heap.find p = some player →
      Effect o m e (m.playerCheckInUpdate player)
  | reserved {uid : UID} {p : Ptr} {player : CPlayer} : e.op = .reserveMoveSession uid →
      m.sessionCall e = some (p, some e.time) → m.getPlayerByUID uid = some p →
      m.heap.find p = some player → Effect o m e (m.reserveMoveSessionUpdate o e.time p player)
  | loggedOut {p : Ptr} {player : CPlayer} : m.sessionCall e = none → m.leaver e.op = some p →
      m.heap.find p = some player → Effect o m e (m.logOutUpdate o p player)
  | changed {p : Ptr} {player : CPlayer} (playerAuthKey : UInt64) (svrKey : LKEY) :
      m.sessionCall e = none → m.heap.find p = some player →
      Effect o m e { m with heap := m.heap.set p { player with playerAuthKey, svrKey } }

theorem onPlayer_cases {uid : UID} {f : Ptr → Master C → Option (Master C)} {m m' : Master C}
    (h : m.onPlayer uid f = some m') :
    m.getPlayerByUID uid = none ∧ m' = m ∨
      ∃ p, m.getPlayerByUID uid = some p ∧ f p m = some m' := by
  unfold onPlayer at h
  split at h
  · rename_i hp
    exact .inl ⟨hp, (Option.some.inj h).symm⟩
  · rename_i p hp
    exact .inr ⟨p, hp, h⟩

theorem setPlayer_cases {f : CPlayer → CPlayer} {p : Ptr} {m m' : Master C}
    (h : setPlayer f p m = some m') :
    ∃ player, m.heap.find p = some player ∧ { m with heap := m.heap.set p (f player) } = m' :=
  Option.map_eq_some_iff.mp h

theorem logIn_find {o : Outside C} {now : Int} {uid : UID} {account : String} {keySvr : LKEY}
    {m m' : Master C} {p : Ptr} (h : m.logIn o now uid account keySvr = (some p, m')) :
    m'.getPlayerByUID uid = some p := by
  unfold logIn at h
  split at h
  · cases h
  · rename_i hu
    split at h
    · cases h
    · obtain ⟨hp, rfl⟩ := Prod.mk.inj h
      obtain rfl := Option.some.inj hp
      exact StdMap.find_insertNew_self (by simpa [getPlayerByUID] using hu) m.nextPtr

theorem logIn_refused {o : Outside C} {now : Int} {uid : UID} {account : String} {keySvr : LKEY}
    {m m' : Master C} (h : m.logIn o now uid account keySvr = (none, m')) : m' = m := by
  unfold logIn at h
  split at h
  · exact (Prod.mk.inj h).2.symm
  · split at h
    · exact (Prod.mk.inj h).2.symm
    · cases h

theorem logOutPlayer_cases {o : Outside C} {p : Ptr} {m m' : Master C}
    (h : m.logOutPlayer o p = some m') :
    ∃ player, m.heap.find p = some player ∧ m.logOutUpdate o p player = m' :=
  Option.map_eq_some_iff.mp h

theorem logOutFound_cases {o : Outside C} {found : Option Ptr} {m m' : Master C}
    (h : (match found with
      | none => some m
      | some p => m.logOutPlayer o p) = some m') :
    m = m' ∨ ∃ p player, found = some p ∧ m.heap.find p = some player ∧
      m.logOutUpdate o p player = m' := by
  cases found with
  | none => exact .inl (Option.some.inj h)
  | some p =>
      obtain ⟨player, hl, hm⟩ := logOutPlayer_cases h
      exact .inr ⟨p, player, rfl, hl, hm⟩

/-- What is kept when a player is logged out and when the front session leaves the
list is kept by a tick. -/
theorem tickSessions_invariant {o : Outside C} (I : Master C → Prop)
    (logOut : ∀ m p player, I m → m.heap.find p = some player → I (m.logOutUpdate o p player))
    (pop : ∀ m, I m → I m.popFront) {timeCur : Int} {sessions : List Session} {m m' : Master C}
    (hm : m.tickSessions o timeCur sessions = some m') (h : I m) : I m' := by
  induction sessions generalizing m with
  | nil => exact Option.some.inj hm ▸ h
  | cons current rest ih =>
      unfold tickSessions at hm
      split at hm
      · exact Option.some.inj hm ▸ h
      · obtain ⟨m₁, hexp, hrest⟩ := Option.bind_eq_some_iff.mp hm
        refine ih hrest (pop m₁ ?_)
        rcases logOutFound_cases hexp with rfl | ⟨p, player, -, hl, rfl⟩
        · exact h
        · exact logOut m p player h hl

theorem logOut_cases {o : Outside C} {uid : UID} {sender : LKEY} {m : Master C}
    {r : Bool × LogoutInformation × Master C} (h : m.logOut o uid sender = some r) :
    r.2.2 = m ∨ ∃ p player, m.leaver (.logOut uid sender) = some p ∧
      m.heap.find p = some player ∧ r.2.2 = m.logOutUpdate o p player := by
  unfold logOut at h
  split at h
  · exact .inl (by rw [← Option.some.inj h])
  · rename_i p hp
    obtain ⟨player, hl, h⟩ := Option.bind_eq_some_iff.mp h
    split at h
    · exact .inl (by rw [← Option.some.inj h])
    · rename_i hs
      split at h
      · exact .inl (by rw [← Option.some.inj h])
      · rename_i ha
        obtain ⟨m', hout, rfl⟩ := Option.map_eq_some_iff.mp h
        obtain ⟨player', hl', rfl⟩ := logOutPlayer_cases hout
        rw [hl] at hl'
        obtain rfl := Option.some.inj hl'
        refine .inr ⟨p, player, ?_, hl, rfl⟩
        rw [leaver, hp, Option.filter_some, hl]
        simp [not_not.mp hs, not_not.mp ha]

theorem step_cases {o : Outside C} {m m' : Master C} {e : Event} (he : e.op ≠ .tickProcess)
    (h : m.step o e = some m') : Effect o m e m' := by
  unfold step at h
  cases hop : e.op with
  | logIn uid account keySvr =>
      simp only [hop, Option.some.injEq] at h
      subst h
      unfold logIn
      split
      · rename_i hu
        exact .same (by simp [sessionCall, hop, Option.ne_none_iff_isSome.mpr hu])
      · rename_i hu
        split
        · rename_i ha
          exact .same (by simp [sessionCall, hop, Option.ne_none_iff_isSome.mpr ha])
        · rename_i ha
          rw [Option.not_isSome_iff_eq_none] at hu ha
          exact .loggedIn hop (by simp [sessionCall, hop, hu, ha]) hu ha
  | playerCheckIn uid =>
      simp only [hop] at h
      rcases onPlayer_cases h with ⟨hp, rfl⟩ | ⟨p, hp, h⟩
      · exact .same (by simp [sessionCall, hop, hp])
      · obtain ⟨player, hl, rfl⟩ := Option.map_eq_some_iff.mp h
        exact .checkedIn hop (by simp [sessionCall, hop, hp]) hl
  | reserveMoveSession uid =>
      simp only [hop] at h
      rcases onPlayer_cases h with ⟨hp, rfl⟩ | ⟨p, hp, h⟩
      · exact .same (by simp [sessionCall, hop, hp])
      · obtain ⟨r, hr, rfl⟩ := Option.map_eq_some_iff.mp h
        obtain ⟨player, hl, rfl⟩ := Option.map_eq_some_iff.mp hr
        exact .reserved hop (by simp [sessionCall, hop, hp]) hp hl
  | logOut uid sender =>
      have hquiet : m.sessionCall e = none := by rw [sessionCall, hop]
      simp only [hop] at h
      obtain ⟨r, hr, rfl⟩ := Option.map_eq_some_iff.mp h
      rcases logOut_cases hr with hsame | ⟨p, player, hp, hl, hout⟩
      · rw [hsame]
        exact .same hquiet
      · rw [hout]
        exact .loggedOut hquiet (by rw [hop]; exact hp) hl
  | logOutForce uid =>
      have hquiet : m.sessionCall e = none := by rw [sessionCall, hop]
      simp only [hop] at h
      rcases logOutFound_cases h with rfl | ⟨p, player, hp, hl, rfl⟩
      · exact .same hquiet
      · exact .loggedOut hquiet (by rw [hop]; exact hp) hl
  | expireSession key =>
      have hquiet : m.sessionCall e = none := by rw [sessionCall, hop]
      simp only [hop] at h
      rcases logOutFound_cases h with rfl | ⟨p, player, hp, hl, rfl⟩
      · exact .same hquiet
      · exact .loggedOut hquiet (by rw [hop]; exact hp) hl
  | tickProcess => exact absurd hop he
  | setPlayerAuthKey uid key =>
      have hquiet : m.sessionCall e = none := by rw [sessionCall, hop]
      simp only [hop] at h
      rcases onPlayer_cases h with ⟨-, rfl⟩ | ⟨p, -, h⟩
      · exact .same hquiet
      · obtain ⟨player, hl, rfl⟩ := setPlayer_cases h
        exact .changed key player.svrKey hquiet hl
  | setSvrKey uid key =>
      have hquiet : m.sessionCall e = none := by rw [sessionCall, hop]
      simp only [hop] at h
      rcases onPlayer_cases h with ⟨-, rfl⟩ | ⟨p, -, h⟩
      · exact .same hquiet
      · obtain ⟨player, hl, rfl⟩ := setPlayer_cases h
        exact .changed player.playerAuthKey key hquiet hl

/-- Every player a call can come to is there. -/
structure Reaches (m : Master C) : Prop where
  uid : ∀ uid p, m.mapUserUID.find uid = some p → ∃ player, m.heap.find p = some player
  session : ∀ key p, m.mapUserSession.find key = some p → ∃ player, m.heap.find p = some player

theorem Reaches.onPlayer {m : Master C} (h : m.Reaches) (uid : UID)
    {f : Ptr → Master C → Option (Master C)}
    (hf : ∀ p player, m.heap.find p = some player → ∃ m', f p m = some m') :
    ∃ m', m.onPlayer uid f = some m' := by
  unfold Master.onPlayer
  split
  · exact ⟨m, rfl⟩
  · rename_i p hp
    obtain ⟨player, hl⟩ := h.uid uid p hp
    exact hf p player hl

theorem Reaches.step {m : Master C} (h : m.Reaches) (o : Outside C) {e : Event}
    (he : e.op ≠ .tickProcess) : ∃ m', m.step o e = some m' := by
  unfold Master.step
  cases hop : e.op with
  | logIn uid account keySvr => exact ⟨_, rfl⟩
  | playerCheckIn uid =>
      exact h.onPlayer uid fun p player hl => ⟨_, by rw [playerCheckIn, hl]; rfl⟩
  | reserveMoveSession uid =>
      exact h.onPlayer uid fun p player hl => ⟨_, by rw [reserveMoveSession, hl]; rfl⟩
  | logOut uid sender =>
      simp only [logOut]
      split
      · exact ⟨_, rfl⟩
      · rename_i p hp
        obtain ⟨player, hl⟩ := h.uid uid p hp
        simp only [logOutPlayer, hl, Option.bind_some, Option.map_some]
        split
        · exact ⟨_, rfl⟩
        · split <;> exact ⟨_, rfl⟩
  | logOutForce uid =>
      simp only [logOutForce]
      split
      · exact ⟨_, rfl⟩
      · rename_i p hp
        obtain ⟨player, hl⟩ := h.uid uid p hp
        exact ⟨_, by rw [logOutPlayer, hl]; rfl⟩
  | expireSession key =>
      simp only [expireSession]
      split
      · exact ⟨_, rfl⟩
      · rename_i p hp
        obtain ⟨player, hl⟩ := h.session key p hp
        exact ⟨_, by rw [logOutPlayer, hl]; rfl⟩
  | tickProcess => exact absurd hop he
  | setPlayerAuthKey uid key =>
      exact h.onPlayer uid fun p player hl => ⟨_, by rw [setPlayerAuthKey, setPlayer, hl]; rfl⟩
  | setSvrKey uid key =>
      exact h.onPlayer uid fun p player hl => ⟨_, by rw [setSvrKey, setPlayer, hl]; rfl⟩

end Master
end TestCodes.SvrMaster
