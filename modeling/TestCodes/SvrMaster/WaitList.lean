import TestCodes.Lib.Machine
import TestCodes.Lib.Partitioned
import TestCodes.SvrMaster.PlayerManager

/-! The wait list of the session validator over runs of its own calls. A tick looks
at the front only, which is enough while the list is in the order of expiration. -/
namespace TestCodes.SvrMaster
open Machine

/-- The loop of `TickProcess`: the keys for which `ExpireSession` is called, and the
sessions that stay. -/
def tickWaiting (timeCur : Int) : List Session → List SessionKey × List Session
  | [] => ([], [])
  | current :: rest =>
      if current.timeExpiration > timeCur then ([], current :: rest)
      else
        let (expired, waiting) := tickWaiting timeCur rest
        (current.sessionKey :: expired, waiting)

def CSessionValidator.tickProcess (v : CSessionValidator) (timeCur : Int) :
    List SessionKey × CSessionValidator :=
  let (expired, listWaitSessions) := tickWaiting timeCur v.listWaitSessions
  (expired, { v with listWaitSessions })

inductive WaitOp where
  | pushSession
  | eraseSession (key : SessionKey)
  | tickProcess

structure WaitCall where
  time : Int
  op : WaitOp

def WaitCall.generates (c : WaitCall) : Bool :=
  match c.op with
  | .pushSession => true
  | _ => false

namespace CSessionValidator

def call (period : Int) (v : CSessionValidator) (c : WaitCall) : CSessionValidator :=
  match c.op with
  | .pushSession => (v.pushSession period c.time).2
  | .eraseSession key => v.eraseSession key
  | .tickProcess => (v.tickProcess c.time).2

/-- The keys go up and the times of expiration do not go down. -/
structure Ordered (v : CSessionValidator) : Prop where
  keys : v.listWaitSessions.Pairwise fun s s' => s.sessionKey < s'.sessionKey
  valid : ∀ s ∈ v.listWaitSessions, s.sessionKey ≠ 0
  expirations : v.listWaitSessions.Pairwise fun s s' => s.timeExpiration ≤ s'.timeExpiration

/-- A tick at `timeCur` calls `ExpireSession` for what has expired, once each and in the
order of the list, and keeps the rest. -/
structure Expires (timeCur : Int) (v : CSessionValidator)
    (r : List SessionKey × CSessionValidator) : Prop where
  expired : r.1 = (v.listWaitSessions.filter (·.timeExpiration ≤ timeCur)).map Session.sessionKey
  once : r.1.Nodup
  waiting : r.2.listWaitSessions = v.listWaitSessions.filter (timeCur < ·.timeExpiration)

/-- What carries the order through a call at `time` or later, when so many keys have
been generated. -/
structure Waits (period time : Int) (generated : ℕ) (v : CSessionValidator) : Prop where
  ordered : v.Ordered
  issued : ∀ s ∈ v.listWaitSessions, s.sessionKey ≤ v.generator
  bounded : ∀ s ∈ v.listWaitSessions, s.timeExpiration ≤ time + period
  generator : v.generator.toNat = generated

variable {v : CSessionValidator} {period time : Int} {generated : ℕ}

theorem tickWaiting_eq (timeCur : Int) (l : List Session) :
    tickWaiting timeCur l =
      ((l.takeWhile (·.timeExpiration ≤ timeCur)).map Session.sessionKey,
        l.dropWhile (·.timeExpiration ≤ timeCur)) := by
  induction l with
  | nil => rfl
  | cons s rest ih =>
      rw [tickWaiting]
      by_cases hs : s.timeExpiration ≤ timeCur
      · rw [if_neg (by omega), ih, List.takeWhile_cons_of_pos (by simpa using hs),
          List.dropWhile_cons_of_pos (by simpa using hs)]
        rfl
      · rw [if_pos (by omega), List.takeWhile_cons_of_neg (by simpa using hs),
          List.dropWhile_cons_of_neg (by simpa using hs)]
        rfl

theorem Waits.init (period time : Int) : Waits period time 0 CSessionValidator.init :=
  ⟨⟨.nil, nofun, .nil⟩, nofun, nofun, rfl⟩

/-- A call that only takes sessions from the list. -/
theorem Waits.shrink {l : List Session} (h : Waits period time generated v)
    (hl : l.Sublist v.listWaitSessions) :
    Waits period time generated { v with listWaitSessions := l } where
  ordered := ⟨h.ordered.keys.sublist hl, fun s hs => h.ordered.valid s (hl.subset hs),
    h.ordered.expirations.sublist hl⟩
  issued s hs := h.issued s (hl.subset hs)
  bounded s hs := h.bounded s (hl.subset hs)
  generator := h.generator

theorem Waits.nextKey (h : Waits period time generated v) (hfew : generated + 1 < UInt64.size) :
    v.nextKey.toNat = generated + 1 := by
  have hgen := h.generator
  have hnext : (v.generator + 1).toNat = generated + 1 := by
    rw [UInt64.toNat_add, hgen]
    exact Nat.mod_eq_of_lt hfew
  have hne : v.generator + 1 ≠ 0 := by
    intro hzero
    rw [hzero] at hnext
    cases hnext
  rw [CSessionValidator.nextKey, generateSessionKey]
  simp only [if_neg hne]
  exact hnext

theorem Waits.push (h : Waits period time generated v) (hfew : generated + 1 < UInt64.size) :
    Waits period time (generated + 1) (v.pushSession period time).2 := by
  have hkey := h.nextKey hfew
  have hnew : ∀ s ∈ v.listWaitSessions, s.sessionKey < v.nextKey := by
    intro s hs
    have hle := UInt64.le_iff_toNat_le.mp (h.issued s hs)
    rw [UInt64.lt_iff_toNat_lt, hkey]
    have hgen := h.generator
    omega
  have hlist : (v.pushSession period time).2.listWaitSessions =
      v.listWaitSessions ++ [⟨v.nextKey, time + period⟩] := rfl
  have hgenerator : (v.pushSession period time).2.generator = v.nextKey := rfl
  refine ⟨⟨?_, ?_, ?_⟩, ?_, ?_, hgenerator ▸ hkey⟩
  · rw [hlist]
    exact List.pairwise_append.mpr ⟨h.ordered.keys, List.pairwise_singleton _ _,
      fun s hs s' hs' => List.mem_singleton.mp hs' ▸ hnew s hs⟩
  · rw [hlist]
    refine List.forall_mem_append.mpr ⟨h.ordered.valid, List.forall_mem_singleton.mpr ?_⟩
    intro hzero
    rw [show v.nextKey = 0 from hzero] at hkey
    cases hkey
  · rw [hlist]
    exact List.pairwise_append.mpr ⟨h.ordered.expirations, List.pairwise_singleton _ _,
      fun s hs s' hs' => List.mem_singleton.mp hs' ▸ h.bounded s hs⟩
  · rw [hlist, hgenerator]
    refine List.forall_mem_append.mpr ⟨fun s hs => ?_, List.forall_mem_singleton.mpr ?_⟩
    · exact UInt64.le_of_lt (hnew s hs)
    · exact UInt64.le_refl _
  · rw [hlist]
    exact List.forall_mem_append.mpr
      ⟨h.bounded, List.forall_mem_singleton.mpr (Int.le_refl _)⟩

theorem Waits.later (h : Waits period time generated v) {time' : Int} (ht : time ≤ time') :
    Waits period time' generated v where
  ordered := h.ordered
  issued := h.issued
  bounded s hs := by
    have hb := h.bounded s hs
    omega
  generator := h.generator

theorem Waits.call (h : Waits period time generated v) {c : WaitCall} (ht : time ≤ c.time)
    (hfew : generated + 1 < UInt64.size) :
    Waits period c.time (if c.generates then generated + 1 else generated) (v.call period c) := by
  have hlater := h.later ht
  unfold CSessionValidator.call WaitCall.generates
  cases c.op with
  | pushSession => exact hlater.push hfew
  | eraseSession key => exact hlater.shrink List.eraseP_sublist
  | tickProcess =>
      simp only [CSessionValidator.tickProcess, tickWaiting_eq]
      exact hlater.shrink (List.dropWhile_sublist _)

theorem Waits.run {calls : List WaitCall} (h : Waits period time generated v)
    (hlow : ∀ c ∈ calls, time ≤ c.time) (clock : (calls.map WaitCall.time).Pairwise (· ≤ ·))
    (few : generated + calls.countP WaitCall.generates < UInt64.size - 1) :
    (calls.foldl (CSessionValidator.call period) v).Ordered := by
  induction calls generalizing v time generated with
  | nil => exact h.ordered
  | cons c calls ih =>
      obtain ⟨hc, hcalls⟩ := List.pairwise_cons.mp clock
      rw [List.countP_cons] at few
      refine ih (h.call (hlow c List.mem_cons_self) (by omega)) (fun c' hc' => ?_) hcalls ?_
      · exact hc c'.time (List.mem_map_of_mem hc')
      · have hgenerated : (if c.generates then generated + 1 else generated) =
            generated + if c.generates then 1 else 0 := by
          split <;> rfl
        rw [hgenerated]
        omega

theorem Ordered.nodup (h : v.Ordered) : v.waitingKeys.Nodup := by
  rw [waitingKeys, List.Nodup, List.pairwise_map]
  exact h.keys.imp fun hlt => UInt64.ne_of_lt hlt

theorem Ordered.expires (h : v.Ordered) (timeCur : Int) :
    Expires timeCur v (v.tickProcess timeCur) := by
  have hparted := Partitioned.of_sorted h.expirations timeCur
  have htick : v.tickProcess timeCur =
      ((v.listWaitSessions.filter (·.timeExpiration ≤ timeCur)).map Session.sessionKey,
        { v with listWaitSessions :=
            v.listWaitSessions.filter fun s => !decide (s.timeExpiration ≤ timeCur) }) := by
    simp only [CSessionValidator.tickProcess, tickWaiting_eq, hparted.takeWhile_eq_filter,
      hparted.dropWhile_eq_filter]
  rw [htick]
  refine ⟨rfl, ?_, ?_⟩
  · exact h.nodup.sublist (List.filter_sublist.map _)
  · refine List.filter_congr fun s _ => ?_
    rw [← decide_not, decide_eq_decide, Int.not_le]

def waitList (period : Int) (calls : List WaitCall) : CSessionValidator :=
  calls.foldl (CSessionValidator.call period) .init

theorem waitList_ordered (period : Int) {calls : List WaitCall}
    (clock : (calls.map WaitCall.time).Pairwise (· ≤ ·))
    (few : calls.countP WaitCall.generates < UInt64.size - 1) :
    (waitList period calls).Ordered := by
  cases calls with
  | nil => exact (Waits.init period 0).ordered
  | cons c calls =>
      refine (Waits.init period c.time).run ?_ clock (by rwa [Nat.zero_add])
      intro c' hc'
      rcases List.mem_cons.mp hc' with rfl | hc'
      · exact Int.le_refl _
      · exact (List.pairwise_cons.mp clock).1 c'.time (List.mem_map_of_mem hc')

end CSessionValidator

open CSessionValidator

/-- Under a clock that does not go back and before the key generator wraps, the wait
list is in order after every run, and a tick takes out what has expired by then. -/
theorem wait_list_ordered (period : Int) (calls : List WaitCall)
    (clock : (calls.map WaitCall.time).Pairwise (· ≤ ·))
    (few : calls.countP WaitCall.generates < UInt64.size - 1) :
    (waitList period calls).Ordered ∧ ∀ timeCur,
      Expires timeCur (waitList period calls) ((waitList period calls).tickProcess timeCur) := by
  have hordered := waitList_ordered period clock few
  exact ⟨hordered, hordered.expires⟩

/-- A session erased in the middle, and one that expires before the last is pushed. -/
def erasedAndExpired : List WaitCall :=
  [⟨0, .pushSession⟩, ⟨1, .pushSession⟩, ⟨1, .pushSession⟩, ⟨2, .eraseSession 2⟩,
    ⟨60, .tickProcess⟩, ⟨61, .pushSession⟩]

theorem wait_list_ordered_run : (waitList 60 erasedAndExpired).Ordered ∧ ∀ timeCur,
    Expires timeCur (waitList 60 erasedAndExpired)
      ((waitList 60 erasedAndExpired).tickProcess timeCur) :=
  wait_list_ordered 60 erasedAndExpired (by decide) (by decide)

/-! The wait list of the player manager: its calls come to calls of the validator. -/

namespace Master
variable {C : Type} {o : Outside C} {m m' : Master C}

def withWaiting (m : Master C) (listWaitSessions : List Session) : Master C :=
  { m with validator := { m.validator with listWaitSessions } }

def expireSessions (o : Outside C) (keys : List SessionKey) (m : Master C) : Option (Master C) :=
  keys.foldlM (fun m key => m.expireSession o key) m

theorem expireSession_withWaiting (key : SessionKey) (l : List Session) :
    (m.withWaiting l).expireSession o key =
      (m.expireSession o key).map fun m => m.withWaiting l := by
  have hsessions : (m.withWaiting l).mapUserSession = m.mapUserSession := rfl
  unfold expireSession
  rw [hsessions]
  cases m.mapUserSession.find key with
  | none => rfl
  | some p =>
      simp only [logOutPlayer, Option.map_map]
      rfl

/-- The tick of the manager makes the calls that the validator's tick asks for, and
leaves the list that it leaves. -/
theorem tickSessions_eq (timeCur : Int) (l : List Session) :
    tickSessions o timeCur l (m.withWaiting l) =
      (expireSessions o (tickWaiting timeCur l).1 m).map fun m =>
        m.withWaiting (tickWaiting timeCur l).2 := by
  induction l generalizing m with
  | nil => rfl
  | cons current rest ih =>
      rw [tickSessions, tickWaiting]
      split
      · rfl
      · rw [expireSession_withWaiting]
        simp only [expireSessions, List.foldlM_cons]
        cases m.expireSession o current.sessionKey with
        | none => rfl
        | some m₁ => exact ih (m := m₁)

theorem tickProcess_eq (timeCur : Int) :
    m.tickProcess o timeCur =
      (expireSessions o (m.validator.tickProcess timeCur).1 m).map fun after =>
        after.withWaiting (m.validator.tickProcess timeCur).2.listWaitSessions :=
  tickSessions_eq (o := o) (m := m) timeCur m.validator.listWaitSessions

theorem expireSessions_validator {keys : List SessionKey} (h : expireSessions o keys m = some m') :
    m'.validator = m.validator := by
  induction keys generalizing m with
  | nil => rw [← Option.some.inj h]
  | cons key keys ih =>
      rw [expireSessions, List.foldlM_cons] at h
      obtain ⟨m₁, hexp, hrest⟩ := Option.bind_eq_some_iff.mp h
      rw [ih hrest]
      rcases logOutFound_cases hexp with rfl | ⟨p, player, -, -, rfl⟩ <;> rfl

theorem step_validator {e : Event} (h : m.step o e = some m') :
    m'.validator = m.validator ∨
      ∃ op, m'.validator = m.validator.call o.authKeyExpireTimePeriod ⟨e.time, op⟩ := by
  by_cases he : e.op = .tickProcess
  · rw [step, he] at h
    simp only [tickProcess_eq] at h
    obtain ⟨m₁, hexp, rfl⟩ := Option.map_eq_some_iff.mp h
    refine .inr ⟨.tickProcess, ?_⟩
    simp only [withWaiting, expireSessions_validator hexp]
    rfl
  · cases Master.step_cases he h with
    | same => exact .inl rfl
    | loggedIn => exact .inr ⟨.pushSession, rfl⟩
    | checkedIn => exact .inr ⟨.eraseSession _, rfl⟩
    | reserved => exact .inr ⟨.pushSession, rfl⟩
    | loggedOut => exact .inl rfl
    | changed => exact .inl rfl

theorem run_validator {events : List Event} (h : run (Master.step o) m events = some m') :
    ∃ calls : List WaitCall, (calls.map WaitCall.time).Sublist (events.map Event.time) ∧
      m'.validator =
        calls.foldl (CSessionValidator.call o.authKeyExpireTimePeriod) m.validator := by
  induction events generalizing m with
  | nil => exact ⟨[], .refl _, by rw [← Option.some.inj h]; rfl⟩
  | cons e events ih =>
      rw [run_cons] at h
      obtain ⟨m₁, he, hrest⟩ := Option.bind_eq_some_iff.mp h
      obtain ⟨calls, hsub, hcalls⟩ := ih hrest
      rcases step_validator he with hsame | ⟨op, hop⟩
      · exact ⟨calls, hsub.cons e.time, by rw [hcalls, hsame]⟩
      · exact ⟨⟨e.time, op⟩ :: calls, hsub.cons_cons e.time, by rw [hcalls, hop]; rfl⟩

/-- The wait list of a manager is in order, under a clock that does not go back and
after fewer calls than there are keys. -/
theorem run_ordered (vecPlayerID : C) {events : List Event}
    (clock : (events.map Event.time).Pairwise (· ≤ ·)) (few : events.length < UInt64.size - 1)
    (h : run (Master.step o) (.init vecPlayerID) events = some m) : m.validator.Ordered := by
  obtain ⟨calls, hsub, hcalls⟩ := run_validator h
  rw [hcalls]
  apply waitList_ordered _ (clock.sublist hsub)
  have hlen := hsub.length_le
  rw [List.length_map, List.length_map] at hlen
  have hcount := calls.countP_le_length (p := WaitCall.generates)
  omega

end Master
end TestCodes.SvrMaster
