import Mathlib.Data.List.Basic

/-! `CSessionValidator`: the key generator and the sessions waiting for a
check-in. `TickProcess` stands with the player manager, whose players it
logs out. -/
namespace TestCodes.SvrMaster

abbrev SessionKey := UInt64

structure Session where
  sessionKey : SessionKey
  timeExpiration : Int
  deriving DecidableEq

structure CSessionValidator where
  generator : UInt64
  listWaitSessions : List Session
  deriving DecidableEq

def CSessionValidator.init : CSessionValidator := ⟨0, []⟩

/-- The generator skips 0, at the wrap of the counter. -/
def CSessionValidator.generateSessionKey (v : CSessionValidator) : SessionKey × CSessionValidator :=
  let generator := v.generator + 1
  let generator := if generator = 0 then generator + 1 else generator
  (generator, { v with generator })

def CSessionValidator.pushSession (v : CSessionValidator) (period now : Int) :
    SessionKey × CSessionValidator :=
  let (key, v) := v.generateSessionKey
  (key, { v with listWaitSessions := v.listWaitSessions ++ [⟨key, now + period⟩] })

/-- Only the first session with the key leaves the list. -/
def CSessionValidator.eraseSession (v : CSessionValidator) (key : SessionKey) :
    CSessionValidator :=
  { v with listWaitSessions := v.listWaitSessions.eraseP fun s => s.sessionKey == key }

/-- The keys still waiting, each as often as it stands in the list. -/
def CSessionValidator.waitingKeys (v : CSessionValidator) : List SessionKey :=
  v.listWaitSessions.map Session.sessionKey

def CSessionValidator.nextKey (v : CSessionValidator) : SessionKey := v.generateSessionKey.1

theorem CSessionValidator.waitingKeys_pushSession (v : CSessionValidator) (period now : Int) :
    (v.pushSession period now).2.waitingKeys = v.waitingKeys ++ [v.nextKey] := by
  simp only [pushSession, waitingKeys, List.map_append, List.map_cons, List.map_nil]
  rfl

theorem CSessionValidator.waitingKeys_eraseSession (v : CSessionValidator) (key : SessionKey) :
    (v.eraseSession key).waitingKeys = v.waitingKeys.erase key := by
  rw [waitingKeys, eraseSession, waitingKeys, List.erase_eq_eraseP', List.eraseP_map]
  rfl

end TestCodes.SvrMaster
