import TestCodes.AuthProvider.NetCommunicator
import TestCodes.Lib.Machine
import TestCodes.Lib.StdMap

/-! `AuthProviderGF`: a login that the middleware server has answered is passed on
to the PLSS server, and its session from one map of `SessionManager` to the other. -/
namespace TestCodes.AuthProvider
open Machine

inductive SessionStep where
  | middleware
  | plss
  deriving DecidableEq

abbrev ServiceUserId := UInt64

structure Session where
  worldID : UInt32
  accountId : List UInt8
  lastActionTime : Int
  sUid : ServiceUserId
  sessionStep : SessionStep
  deriving DecidableEq

structure SessionManager where
  sessionMap : StdMap ServiceUserId Session
  plssSessionMap : StdMap (List UInt8) Session

namespace SessionManager

def popSession (m : SessionManager) (sessionkey : ServiceUserId) :
    Option (Session × SessionManager) :=
  (m.sessionMap.find sessionkey).map fun toPop =>
    (toPop, { m with sessionMap := m.sessionMap.eraseKey sessionkey })

def popPlssSession (m : SessionManager) (strToGet : List UInt8) :
    Option (Session × SessionManager) :=
  (m.plssSessionMap.find strToGet).map fun toPop =>
    (toPop, { m with plssSessionMap := m.plssSessionMap.eraseKey strToGet })

/-- `insert(...).second`: an entry that is already there stays. -/
def pushPlssSession (m : SessionManager) (strToSet : List UInt8) (toSet : Session) :
    Bool × SessionManager :=
  ((m.plssSessionMap.find strToSet).isNone,
    { m with plssSessionMap := m.plssSessionMap.insertNew strToSet toSet })

end SessionManager

/-- The bytes that the string functions see: all before the first NUL. -/
def cString (bytes : List UInt8) : List UInt8 := bytes.takeWhile (· ≠ 0)

/-- The fields of `GAMEFLIER_PACKETS::Response` that its handler reads. -/
structure Response where
  result : Int32
  reason : List.Vector UInt8 51
  sessionkey : Int64

structure LoginResult where
  userName : List.Vector UInt8 25
  resultValue : UInt8

structure Login where
  worldID : UInt32
  username : List UInt8
  loginTime : List UInt8
  deriving DecidableEq

/-- The current time as `strftime` prints it, and what `SendTo` answers. -/
structure LoginEnv where
  loginTime : List UInt8
  sent : Bool

/-- The session maps, and the requests made to the PLSS communicator. When the process has ended,
this is the memory as it was then. -/
structure AuthProviderGF where
  sessionManager : SessionManager
  requests : List Login
  ended : Bool

namespace AuthProviderGF

/-- An `ASSERT_RETFALSE` or `ASSERT_RETURN` that fails does not return: its message formats
`__LINE__` with `%s`, which ends the process. -/
def assertFails (a : AuthProviderGF) : AuthProviderGF := { a with ended := true }

/-- Where it returns, it answers true. -/
def plssRequestLogin (env : LoginEnv) (aSession : Session) (a : AuthProviderGF) :
    AuthProviderGF :=
  let username := cString aSession.accountId
  -- `strcpy_s` ends the process when the name does not fit in `username[25]`
  if 25 ≤ username.length then { a with ended := true }
  else
    let login : Login := ⟨aSession.worldID, username, env.loginTime⟩
    let a := { a with requests := a.requests ++ [login] }
    if !env.sent then a.assertFails
    else
      let (pushed, sessionManager) :=
        a.sessionManager.pushPlssSession aSession.accountId aSession
      let a := { a with sessionManager }
      if pushed then a else a.assertFails

end AuthProviderGF

/-- `AUTH_RESULT_SUCCEED`, and the reason reads "NULL", as `strSessionAcct` does. -/
def Response.succeeded (response : Response) : Bool :=
  response.result = 1 ∧ cString response.reason.toList = [78, 85, 76, 76]

def isNullterminated (bytes : List UInt8) : Bool := bytes.contains 0

/-- Without a session the assertion of `PopSession` fails. -/
def AuthProviderGF.handlerResponse (env : LoginEnv) (response : Response) (a : AuthProviderGF) :
    AuthProviderGF :=
  match a.sessionManager.popSession response.sessionkey.toUInt64 with
  | none => a.assertFails
  | some (aSession, sessionManager) =>
      let a := { a with sessionManager }
      if response.succeeded then a.plssRequestLogin env aSession else a

/-- The billing result is computed from `resultValue` and passed on to nothing. -/
def AuthProviderGF.handlerLoginResult (response : LoginResult) (a : AuthProviderGF) :
    AuthProviderGF :=
  if !isNullterminated response.userName.toList then a.assertFails
  else
    match a.sessionManager.popPlssSession (cString response.userName.toList) with
    | none => a.assertFails
    | some (_, sessionManager) => { a with sessionManager }

inductive HandlerCall where
  | response (env : LoginEnv) (response : Response)
  | loginResult (response : LoginResult)

def AuthProviderGF.handle (a : AuthProviderGF) : HandlerCall → AuthProviderGF
  | .response env response => a.handlerResponse env response
  | .loginResult response => a.handlerLoginResult response

/-- Nothing is called any more when the process has ended. -/
def AuthProviderGF.step (a : AuthProviderGF) (call : HandlerCall) : Option AuthProviderGF :=
  if a.ended then none else some (a.handle call)

/-- The message takes a session out of `plssSessionMap` if one is under the account. -/
def HandlerCall.Names (account : List UInt8) : HandlerCall → Prop
  | .loginResult result => isNullterminated result.userName.toList = true ∧
      cString result.userName.toList = account
  | .response .. => False

namespace AuthProviderGF
variable {a a' : AuthProviderGF} {env : LoginEnv} {response : Response} {x : Session}

/-- The session under the key that a call pops. -/
def session (a : AuthProviderGF) (response : Response) : Option Session :=
  a.sessionManager.sessionMap.find response.sessionkey.toUInt64

def Waits (a : AuthProviderGF) (x : Session) : Prop :=
  a.sessionManager.plssSessionMap.find x.accountId = some x

theorem step_eq_some_iff {c : HandlerCall} :
    a.step c = some a' ↔ a.ended = false ∧ a.handle c = a' := by
  unfold step
  cases a.ended with
  | true => simp
  | false => simp

theorem handlerResponse_none (hx : a.session response = none) :
    a.handlerResponse env response = a.assertFails := by
  rw [session] at hx
  rw [handlerResponse, SessionManager.popSession, hx]
  rfl

theorem plssRequestLogin_maps (env : LoginEnv) (x : Session) (a : AuthProviderGF) :
    (a.plssRequestLogin env x).sessionManager.sessionMap = a.sessionManager.sessionMap ∧
      (a.plssRequestLogin env x).sessionManager.plssSessionMap =
        if (cString x.accountId).length < 25 ∧ env.sent then
          a.sessionManager.plssSessionMap.insertNew x.accountId x
        else a.sessionManager.plssSessionMap := by
  unfold plssRequestLogin
  by_cases hfits : 25 ≤ (cString x.accountId).length
  · simp only [if_pos hfits, Nat.not_lt.mpr hfits, false_and, ↓reduceIte, and_self]
  · have hlt := Nat.not_le.mp hfits
    cases env.sent with
    | false => simp [hfits, assertFails]
    | true =>
        simp only [if_neg hfits, hlt, Bool.not_true, Bool.false_eq_true, and_self, ↓reduceIte]
        by_cases hnew : (a.sessionManager.pushPlssSession x.accountId x).1 = true
        · rw [if_pos hnew]
          exact ⟨rfl, rfl⟩
        · rw [if_neg hnew]
          exact ⟨rfl, rfl⟩

/-- What a response does to the two maps, whether the process survives it or not. -/
theorem handlerResponse_maps (hx : a.session response = some x) :
    (a.handlerResponse env response).sessionManager.sessionMap =
        a.sessionManager.sessionMap.eraseKey response.sessionkey.toUInt64 ∧
      (a.handlerResponse env response).sessionManager.plssSessionMap =
        if response.succeeded ∧ (cString x.accountId).length < 25 ∧ env.sent then
          a.sessionManager.plssSessionMap.insertNew x.accountId x
        else a.sessionManager.plssSessionMap := by
  rw [session] at hx
  simp only [handlerResponse, SessionManager.popSession, hx, Option.map_some]
  cases response.succeeded with
  | false => simp
  | true =>
      simp only [↓reduceIte, true_and]
      exact plssRequestLogin_maps ..

/-- Only a login result that names the account ends the wait. -/
theorem Waits.handle (h : a.Waits x) {c : HandlerCall} (hc : ¬ c.Names x.accountId) :
    (a.handle c).Waits x := by
  cases c with
  | response env response =>
      change (a.handlerResponse env response).Waits x
      cases hy : a.session response with
      | none =>
          rw [handlerResponse_none hy]
          exact h
      | some y =>
          rw [Waits, (handlerResponse_maps hy).2]
          split
          · exact StdMap.find_insertNew_of_some h y.accountId y
          · exact h
  | loginResult response =>
      change (a.handlerLoginResult response).Waits x
      unfold handlerLoginResult
      split
      · exact h
      · rename_i hnul
        rw [Bool.not_eq_true, Bool.not_eq_false'] at hnul
        split
        · exact h
        · rename_i y m hpop
          obtain ⟨z, -, hpair⟩ := Option.map_eq_some_iff.mp hpop
          obtain ⟨-, rfl⟩ := Prod.mk.inj hpair
          have hne : x.accountId ≠ cString response.userName.toList :=
            fun he => hc ⟨hnul, he.symm⟩
          rw [Waits, StdMap.find_eraseKey, if_neg hne]
          exact h

theorem Waits.run (h : a.Waits x) {calls : List HandlerCall}
    (hcalls : ∀ c ∈ calls, ¬ c.Names x.accountId)
    (hrun : run AuthProviderGF.step a calls = some a') : a'.Waits x := by
  induction calls generalizing a with
  | nil => exact Option.some.inj hrun ▸ h
  | cons c calls ih =>
      rw [run_cons] at hrun
      obtain ⟨a₁, hstep, hrun⟩ := Option.bind_eq_some_iff.mp hrun
      obtain ⟨-, rfl⟩ := step_eq_some_iff.mp hstep
      refine ih (h.handle (hcalls c List.mem_cons_self)) ?_ hrun
      exact fun d hd => hcalls d (List.mem_cons_of_mem c hd)

/-- The session that a response has taken out waits for the PLSS server's answer,
now and until a login result names its account; or the request was not sent, and the
session is back where it was. -/
def Keeps (a' : AuthProviderGF) (env : LoginEnv) (response : Response) (x : Session)
    (later : List HandlerCall) : Prop :=
  env.sent = false ∧ a'.session response = some x ∨
    ∀ calls t, calls <+: later → (∀ c ∈ calls, ¬ c.Names x.accountId) →
      Machine.run AuthProviderGF.step a' calls = some t → t.Waits x

/-- No success response of the run loses its session, the one that ends the process included. -/
def NoLoginLost (a : AuthProviderGF) (calls : List HandlerCall) : Prop :=
  ∀ before env response later, calls = before ++ .response env response :: later →
    response.succeeded = true → ∀ s s' x, Machine.run AuthProviderGF.step a before = some s →
      s.session response = some x → s.step (.response env response) = some s' →
      s'.Keeps env response x later

/-- The account name fits, the request is sent and no session waits under the account; or the very
same session waits there already. -/
def MovesOn (a : AuthProviderGF) : HandlerCall → Prop
  | .response env response => a.ended = false → response.succeeded = true →
      ∀ x, a.session response = some x →
        a.Waits x ∨ ((cString x.accountId).length < 25 ∧ env.sent = true) ∧
          a.sessionManager.plssSessionMap.find x.accountId = none
  | .loginResult _ => True

/-- Right after a success response its session waits exactly when it could move on. -/
theorem waits_after_iff (hr : response.succeeded = true) (hx : a.session response = some x) :
    (a.handlerResponse env response).Waits x ↔
      a.Waits x ∨ ((cString x.accountId).length < 25 ∧ env.sent = true) ∧
        a.sessionManager.plssSessionMap.find x.accountId = none := by
  rw [Waits, (handlerResponse_maps hx).2]
  by_cases hmoves : (cString x.accountId).length < 25 ∧ env.sent = true
  · simp only [hr, hmoves, and_self, ↓reduceIte, true_and]
    constructor
    · intro hfind
      cases hold : a.sessionManager.plssSessionMap.find x.accountId with
      | none => exact .inr rfl
      | some y =>
          have hkept := StdMap.find_insertNew_of_some hold x.accountId x
          exact .inl (hold.trans (hkept.symm.trans hfind))
    · rintro (hwaits | hnone)
      · exact StdMap.find_insertNew_of_some hwaits _ _
      · exact StdMap.find_insertNew_self hnone x
  · simp only [hmoves, and_false, ↓reduceIte, false_and, or_false]
    exact Iff.rfl

/-- A session that was taken out is not back in the first map. -/
theorem session_after (hx : a.session response = some x) :
    (a.handlerResponse env response).session response = none := by
  rw [session, (handlerResponse_maps hx).1, StdMap.find_eraseKey, if_pos rfl]

theorem keeps_iff (hr : response.succeeded = true) (hx : a.session response = some x)
    (later : List HandlerCall) : (a.handlerResponse env response).Keeps env response x later ↔
      a.Waits x ∨ ((cString x.accountId).length < 25 ∧ env.sent = true) ∧
        a.sessionManager.plssSessionMap.find x.accountId = none := by
  rw [← waits_after_iff hr hx]
  constructor
  · rintro (⟨-, hback⟩ | hwaits)
    · rw [session_after hx] at hback
      cases hback
    · exact hwaits [] _ (List.nil_prefix) (by simp) rfl
  · intro hwaits
    exact .inr fun calls t _ hcalls hrun => hwaits.run hcalls hrun

end AuthProviderGF

/-- In every run, up to the end of the process if it ends, no success response loses its session
exactly when each of them can move it on. -/
theorem no_login_lost_iff (a : AuthProviderGF) (calls : List HandlerCall) :
    a.NoLoginLost calls ↔ Along AuthProviderGF.step AuthProviderGF.MovesOn a calls := by
  rw [along_iff]
  constructor
  · intro hkept before c later hsplit s hs
    cases c with
    | loginResult response => trivial
    | response env response =>
        intro halive hr x hx
        have hstep : s.step (.response env response) = some (s.handlerResponse env response) :=
          AuthProviderGF.step_eq_some_iff.mpr ⟨halive, rfl⟩
        exact (AuthProviderGF.keeps_iff hr hx later).mp
          (hkept before env response later hsplit hr s _ x hs hx hstep)
  · intro hmoves before env response later hsplit hr s s' x hs hx hstep
    obtain ⟨halive, rfl⟩ := AuthProviderGF.step_eq_some_iff.mp hstep
    exact (AuthProviderGF.keeps_iff hr hx later).mpr
      (hmoves before _ later hsplit s hs halive hr x hx)

def nullReason : List.Vector UInt8 51 := ⟨[78, 85, 76, 76] ++ List.replicate 47 0, by decide⟩

def oneLogin : AuthProviderGF :=
  ⟨⟨(∅ : StdMap ServiceUserId Session).set 1 ⟨2, [97], 0, 1, .middleware⟩, ∅⟩, [], false⟩

/-- The PLSS request of a success response cannot be sent: the process ends, and in its memory the
session is in neither map. -/
theorem unsent_login_lost :
    ¬ ∀ (sessionMap : StdMap ServiceUserId Session) (calls : List HandlerCall),
      AuthProviderGF.NoLoginLost ⟨⟨sessionMap, ∅⟩, [], false⟩ calls := by
  intro h
  have hkept := h oneLogin.sessionManager.sessionMap
    [.response ⟨[], false⟩ ⟨1, nullReason, 1⟩] [] ⟨[], false⟩ ⟨1, nullReason, 1⟩ []
    rfl rfl oneLogin _ ⟨2, [97], 0, 1, .middleware⟩ rfl rfl rfl
  rcases hkept with ⟨-, hback⟩ | hwaits
  · cases hback
  · have hfind := hwaits [] _ (List.nil_prefix) (by simp) rfl
    cases hfind

end TestCodes.AuthProvider
