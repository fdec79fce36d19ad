import Mathlib.Algebra.Ring.Nat
import TestCodes.SvrMaster.HandlerRuns
import TestCodes.SvrMaster.SessionExpiry

/-! The players and their keys in every run in which the key generator does not
wrap, however the players move and whatever the clock does. -/
namespace TestCodes.SvrMaster
open Machine

theorem CSessionValidator.nextKey_toNat {v : CSessionValidator}
    (h : v.generator.toNat + 1 < 2 ^ 64) : v.nextKey.toNat = v.generator.toNat + 1 := by
  have hadd : (v.generator + 1).toNat = v.generator.toNat + 1 := by
    rw [UInt64.toNat_add]
    exact Nat.mod_eq_of_lt h
  have hne : v.generator + 1 ≠ 0 := by
    intro he
    rw [he] at hadd
    exact absurd hadd (by simp)
  simp only [nextKey, generateSessionKey, if_neg hne, hadd]

/-- The keys in use are no larger than the last one drawn, and `room` more can be
drawn. -/
structure Registry {C : Type} (room : ℕ) (m : Master C) : Prop where
  room : m.validator.generator.toNat + room < 2 ^ 64
  waiting : ∀ s ∈ m.validator.listWaitSessions, s.sessionKey.toNat ≤ m.validator.generator.toNat
  players : ∀ p x, m.heap.find p = some x → x.sessionKey.toNat ≤ m.validator.generator.toNat
  entries : ∀ k p, m.mapUserSession.find k = some p → k.toNat ≤ m.validator.generator.toNat
  ownKey : ∀ p q x y, m.heap.find p = some x → m.heap.find q = some y →
    x.sessionKey = y.sessionKey → p = q
  named : ∀ p x, m.heap.find p = some x → m.mapUserUID.find x.uid = some p
  fresh : ∀ p, m.nextPtr ≤ p → m.heap.find p = none
  uidBound : ∀ u p, m.mapUserUID.find u = some p → p < m.nextPtr
  sessionBound : ∀ k p, m.mapUserSession.find k = some p → p < m.nextPtr

namespace Registry
variable {C : Type} {o : Outside C} {now : Int} {room : ℕ} {m m' : Master C}

theorem init (vecPlayerID : C) (h : room < 2 ^ 64) :
    Registry room (Master.init vecPlayerID) where
  room := by simpa [Master.init, CSessionValidator.init] using h
  waiting s hs := by cases hs
  players p x hp := by cases hp
  entries k p hk := by cases hk
  ownKey p q x y hp := by cases hp
  named p x hp := by cases hp
  fresh p _ := rfl
  uidBound u p hu := by cases hu
  sessionBound k p hk := by cases hk

theorem mono (h : Registry room m) {less : ℕ} (hle : less ≤ room) :
    Registry less m :=
  { h with room := by have := h.room; omega }

theorem nextKey (h : Registry (room + 1) m) :
    m.validator.nextKey.toNat = m.validator.generator.toNat + 1 := by
  have := h.room
  exact CSessionValidator.nextKey_toNat (by omega)

theorem ne_nextKey (h : Registry (room + 1) m) {k : SessionKey}
    (hk : k.toNat ≤ m.validator.generator.toNat) : k ≠ m.validator.nextKey := by
  rintro rfl
  rw [h.nextKey] at hk
  omega

theorem issue (h : Registry (room + 1) m) {p : Ptr}
    (hi : Issues o now p m m')
    (named : ∀ q x, m'.heap.find q = some x → m'.mapUserUID.find x.uid = some q)
    (fresh : ∀ q, m'.nextPtr ≤ q → m'.heap.find q = none)
    (uidBound : ∀ u q, m'.mapUserUID.find u = some q → q < m'.nextPtr)
    (hp : p < m'.nextPtr) (hle : m.nextPtr ≤ m'.nextPtr) :
    Registry room m' := by
  obtain ⟨player, hkey, hheap⟩ := hi.heap
  have hgen : m'.validator.generator.toNat = m.validator.generator.toNat + 1 := by
    rw [hi.validator]
    exact h.nextKey
  have hwaits : m'.validator.listWaitSessions = m.validator.listWaitSessions ++
      [⟨m.validator.nextKey, now + o.authKeyExpireTimePeriod⟩] := by
    rw [hi.validator]
    rfl
  have hroom := h.room
  refine ⟨by omega, ?_, ?_, ?_, ?_, named, fresh, uidBound, ?_⟩
  · intro s hs
    rw [hwaits] at hs
    rcases List.mem_append.mp hs with hs | hs
    · have := h.waiting s hs
      omega
    · rw [List.mem_singleton.mp hs, hgen]
      exact Nat.le_of_eq h.nextKey
  · intro q x hq
    rw [hheap, StdMap.find_set] at hq
    split at hq
    · rw [← Option.some.inj hq, hkey, hgen]
      exact Nat.le_of_eq h.nextKey
    · have := h.players q x hq
      omega
  · intro k q hk
    rw [hi.session] at hk
    rcases StdMap.find_insertNew_some hk with hk | ⟨rfl, -⟩
    · have := h.entries k q hk
      omega
    · rw [hgen]
      exact Nat.le_of_eq h.nextKey
  · intro q r x y hq hr hxy
    rw [hheap, StdMap.find_set] at hq hr
    by_cases hqp : q = p <;> by_cases hrp : r = p <;>
      simp only [hqp, hrp, ↓reduceIte, Option.some.injEq] at hq hr ⊢
    · rw [← hq, hkey] at hxy
      exact absurd hxy.symm (h.ne_nextKey (h.players r y hr))
    · rw [← hr, hkey] at hxy
      exact absurd hxy (h.ne_nextKey (h.players q x hq))
    · exact h.ownKey q r x y hq hr hxy
  · intro k q hk
    rw [hi.session] at hk
    rcases StdMap.find_insertNew_some hk with hk | ⟨-, rfl⟩
    · exact Nat.lt_of_lt_of_le (h.sessionBound k q hk) hle
    · exact hp

theorem logIn (h : Registry (room + 1) m) {uid : UID}
    (hu : m.getPlayerByUID uid = none) (account : String) (keySvr : LKEY) :
    Registry room (m.logInUpdate o now uid account keySvr) := by
  refine h.issue (.logIn o now uid account keySvr m) ?_ ?_ ?_ (Nat.lt_succ_self _) (Nat.le_succ _)
  · intro q x hq
    simp only [Master.logInUpdate, StdMap.find_set] at hq ⊢
    split at hq
    · rename_i hqn
      rw [← Option.some.inj hq, hqn]
      exact StdMap.find_insertNew_self hu m.nextPtr
    · have hx := h.named q x hq
      rw [StdMap.find_insertNew_ne _ (StdMap.ne_of_find hx hu), hx]
  · intro q hq
    have hlt : m.nextPtr < q := hq
    simp only [Master.logInUpdate, StdMap.find_set, if_neg (Nat.ne_of_gt hlt)]
    exact h.fresh q (Nat.le_of_lt hlt)
  · intro u q hq
    rcases StdMap.find_insertNew_some hq with hq | ⟨-, rfl⟩
    · exact Nat.lt_succ_of_lt (h.uidBound u q hq)
    · exact Nat.lt_succ_self _

theorem find_set_named (h : Registry room m) {p : Ptr} {x y : CPlayer}
    (hp : m.heap.find p = some x) (huid : y.uid = x.uid) {q : Ptr} {z : CPlayer}
    (hq : (m.heap.set p y).find q = some z) : m.mapUserUID.find z.uid = some q := by
  rw [StdMap.find_set] at hq
  split at hq
  · rename_i hqp
    rw [← Option.some.inj hq, huid, hqp]
    exact h.named p x hp
  · exact h.named q z hq

theorem find_set_fresh (h : Registry room m) {p : Ptr} {x : CPlayer}
    (hp : m.heap.find p = some x) (y : CPlayer) {q : Ptr} (hq : m.nextPtr ≤ q) :
    (m.heap.set p y).find q = none := by
  have hnone := h.fresh q hq
  rw [StdMap.find_set, if_neg (StdMap.ne_of_find hp hnone).symm, hnone]

theorem lt_nextPtr (h : Registry room m) {p : Ptr} {x : CPlayer}
    (hp : m.heap.find p = some x) : p < m.nextPtr := by
  by_contra hle
  rw [h.fresh p (Nat.not_lt.mp hle)] at hp
  cases hp

theorem reserve (h : Registry (room + 1) m) {p : Ptr}
    {player : CPlayer} (hl : m.heap.find p = some player) :
    Registry room (m.reserveMoveSessionUpdate o now p player) := by
  apply h.issue (.reserve o now p player m) ?_ ?_ h.uidBound (h.lt_nextPtr hl) (Nat.le_refl _)
  · intro q x hq
    exact h.find_set_named hl (y := { player with sessionKey := m.validator.nextKey }) rfl hq
  · intro q hq
    exact h.find_set_fresh hl _ hq

theorem checkIn (h : Registry room m) (player : CPlayer) :
    Registry room (m.playerCheckInUpdate player) where
  room := h.room
  waiting s hs := h.waiting s (List.eraseP_subset hs)
  players := h.players
  entries k p hk := h.entries k p (StdMap.find_eraseKey_some hk).2
  ownKey := h.ownKey
  named := h.named
  fresh := h.fresh
  uidBound := h.uidBound
  sessionBound k p hk := h.sessionBound k p (StdMap.find_eraseKey_some hk).2

theorem logOut (h : Registry room m) {p : Ptr} {player : CPlayer}
    (hl : m.heap.find p = some player) : Registry room (m.logOutUpdate o p player) where
  room := h.room
  waiting := h.waiting
  players q x hq := h.players q x (StdMap.find_eraseKey_some hq).2
  entries k q hk := h.entries k q (StdMap.find_eraseKey_some hk).2
  ownKey q r x y hq hr :=
    h.ownKey q r x y (StdMap.find_eraseKey_some hq).2 (StdMap.find_eraseKey_some hr).2
  named q x hq := by
    obtain ⟨hqp, hq⟩ := StdMap.find_eraseKey_some hq
    have hx := h.named q x hq
    have hne : x.uid ≠ player.uid := by
      intro he
      rw [he, h.named p player hl] at hx
      exact hqp (Option.some.inj hx).symm
    simp only [Master.logOutUpdate]
    split
    · rw [StdMap.find_eraseKey, if_neg hne, hx]
    · exact hx
  fresh q hq := by
    have hnone := h.fresh q hq
    simp only [Master.logOutUpdate, StdMap.find_eraseKey, hnone, ite_self]
  uidBound u q hq := by
    simp only [Master.logOutUpdate] at hq
    split at hq
    · exact h.uidBound u q (StdMap.find_eraseKey_some hq).2
    · exact h.uidBound u q hq
  sessionBound k q hk := h.sessionBound k q (StdMap.find_eraseKey_some hk).2

theorem change (h : Registry room m) {p : Ptr} {player : CPlayer}
    (hl : m.heap.find p = some player) (playerAuthKey : UInt64) (svrKey : LKEY) :
    Registry room
      { m with heap := m.heap.set p { player with playerAuthKey, svrKey } } where
  room := h.room
  waiting := h.waiting
  players q x hq := by
    obtain ⟨y, hy, hkey⟩ := find_set_change hl hq
    rw [← hkey]
    exact h.players q y hy
  entries := h.entries
  ownKey q r x y hq hr hxy := by
    obtain ⟨x', hq', hx⟩ := find_set_change hl hq
    obtain ⟨y', hr', hy⟩ := find_set_change hl hr
    exact h.ownKey q r x' y' hq' hr' (by rw [hx, hxy, hy])
  named q x hq := h.find_set_named hl (y := { player with playerAuthKey, svrKey }) rfl hq
  fresh q hq := h.find_set_fresh hl _ hq
  uidBound := h.uidBound
  sessionBound := h.sessionBound

theorem popFront (h : Registry room m) : Registry room m.popFront where
  room := h.room
  waiting s hs := h.waiting s (List.mem_of_mem_tail hs)
  players := h.players
  entries := h.entries
  ownKey := h.ownKey
  named := h.named
  fresh := h.fresh
  uidBound := h.uidBound
  sessionBound := h.sessionBound

theorem expire (h : Registry room m) {key : SessionKey}
    (hm : m.expireSession o key = some m') : Registry room m' := by
  rcases Master.logOutFound_cases hm with rfl | ⟨p, player, -, hl, rfl⟩
  · exact h
  · exact h.logOut hl

theorem tick (h : Registry room m) {timeCur : Int} {ss : List Session}
    (hm : m.tickSessions o timeCur ss = some m') : Registry room m' :=
  Master.tickSessions_invariant (Registry room) (fun _ _ _ h hl => h.logOut hl)
    (fun _ h => h.popFront) hm h

theorem step {e : Event}
    (h : Registry (room + if e.op.drawsKey then 1 else 0) m)
    (he : e.op.expires = false) (hm : m.step o e = some m') :
    Registry room m' := by
  have hop : e.op ≠ .tickProcess := by
    intro hop
    rw [hop] at he
    cases he
  have hrest : Registry room m := h.mono (Nat.le_add_right _ _)
  cases Master.step_cases hop hm with
  | same => exact hrest
  | loggedIn hlog _ hu =>
      rw [hlog] at h
      exact h.logIn hu ..
  | checkedIn => exact hrest.checkIn _
  | reserved hres _ _ hl =>
      rw [hres] at h
      exact h.reserve hl
  | loggedOut _ _ hl => exact hrest.logOut hl
  | changed playerAuthKey svrKey _ hl => exact hrest.change hl playerAuthKey svrKey

theorem makes {target : Option UID} {actions : List Action} {keys : ℕ}
    (h : Registry (room + keys) m) (hm : Makes o now target actions keys m m') :
    Registry room m' := by
  apply hm.invariant (fun k m => Registry k m) ?_ ?_ h
  · intro m n k hle hn
    exact hn.mono hle
  · rintro k m e m' hk ⟨-, hserves⟩ he
    exact hk.step hserves.keeps he

theorem serverStep {s s' : Server C} {a : Arrival} (h : Registry (room + a.input.keys) s.master)
    (hs : s.step o a = some s') : Registry room s'.master := by
  cases Server.step_cases hs with
  | handled hin hr =>
      rw [hin] at h
      exact h.makes (Makes.handler hr)
  | ticked hin hm =>
      rw [hin] at h
      exact h.tick hm
  | configured _ hin =>
      rw [hin] at h
      exact h

theorem serverRun {s s' : Server C} {arrivals : List Arrival}
    (h : Registry (room + (arrivals.map fun a => a.input.keys).sum) s.master)
    (hs : run (Server.step o) s arrivals = some s') : Registry room s'.master := by
  induction arrivals generalizing s with
  | nil => exact Option.some.inj hs ▸ h
  | cons a arrivals ih =>
      rw [run_cons] at hs
      obtain ⟨s₁, ha, hs⟩ := Option.bind_eq_some_iff.mp hs
      rw [List.map_cons, List.sum_cons, Nat.add_comm a.input.keys, ← Nat.add_assoc] at h
      exact ih (h.serverStep ha) hs

end Registry

/-- The sessions wait in the order in which they expire. -/
structure Ordered {C : Type} (period now : Int) (m : Master C) : Prop where
  sorted : m.validator.listWaitSessions.Pairwise fun s s' => s.timeExpiration ≤ s'.timeExpiration
  bounded : ∀ s ∈ m.validator.listWaitSessions, s.timeExpiration ≤ now + period

namespace Ordered
variable {C : Type} {o : Outside C} {period now : Int} {m m' : Master C}

theorem init (period now : Int) (vecPlayerID : C) :
    Ordered period now (Master.init vecPlayerID) where
  sorted := .nil
  bounded s hs := by cases hs

theorem clock (h : Ordered period now m) {later : Int} (hle : now ≤ later) :
    Ordered period later m where
  sorted := h.sorted
  bounded s hs := by
    have hb := h.bounded s hs
    omega

theorem issue (h : Ordered o.authKeyExpireTimePeriod now m) {p : Ptr} (hi : Issues o now p m m') :
    Ordered o.authKeyExpireTimePeriod now m' := by
  obtain ⟨hsorted, hbounded⟩ := sorted_pushSession h.sorted h.bounded
  refine ⟨?_, ?_⟩
  · rw [hi.validator]
    exact hsorted
  · rw [hi.validator]
    exact hbounded

theorem sublist (h : Ordered period now m)
    (hsub : m'.validator.listWaitSessions.Sublist m.validator.listWaitSessions) :
    Ordered period now m' where
  sorted := h.sorted.sublist hsub
  bounded s hs := h.bounded s (hsub.subset hs)

theorem tick (h : Ordered period now m) {timeCur : Int} {ss : List Session}
    (hm : m.tickSessions o timeCur ss = some m') : Ordered period now m' :=
  Master.tickSessions_invariant (Ordered period now)
    (fun _ _ _ h _ => h.sublist (List.Sublist.refl _))
    (fun _ h => h.sublist (List.tail_sublist _)) hm h

theorem step {e : Event} (h : Ordered o.authKeyExpireTimePeriod e.time m)
    (hm : m.step o e = some m') : Ordered o.authKeyExpireTimePeriod e.time m' := by
  by_cases hop : e.op = .tickProcess
  · obtain ⟨time, op⟩ := e
    obtain rfl : op = .tickProcess := hop
    exact h.tick hm
  · cases Master.step_cases hop hm with
    | same | loggedOut | changed => exact h.sublist (List.Sublist.refl _)
    | loggedIn => exact h.issue (.logIn ..)
    | checkedIn => exact h.sublist List.eraseP_sublist
    | reserved => exact h.issue (.reserve ..)

theorem serverStep {s s' : Server C} {a : Arrival}
    (h : Ordered o.authKeyExpireTimePeriod now s.master) (hclock : now ≤ a.time)
    (hs : s.step o a = some s') : Ordered o.authKeyExpireTimePeriod a.time s'.master := by
  obtain ⟨handled, -, -, hcalls⟩ := Server.step_calls hs
  refine hcalls.invariant (Ordered o.authKeyExpireTimePeriod a.time) ?_ (h.clock hclock)
  rintro m e m' hm ⟨htime, -⟩ he
  rw [← htime] at hm ⊢
  exact hm.step he

theorem serverRun {s s' : Server C} {arrivals : List Arrival} {last : Int}
    (h : Ordered o.authKeyExpireTimePeriod now s.master)
    (hclock : (now :: arrivals.map Arrival.time).Pairwise (· ≤ ·))
    (hlast : ∀ t ∈ now :: arrivals.map Arrival.time, t ≤ last)
    (hs : run (Server.step o) s arrivals = some s') :
    Ordered o.authKeyExpireTimePeriod last s'.master := by
  induction arrivals generalizing s now with
  | nil => exact Option.some.inj hs ▸ h.clock (hlast now List.mem_cons_self)
  | cons a arrivals ih =>
      rw [run_cons] at hs
      obtain ⟨s₁, ha, hs⟩ := Option.bind_eq_some_iff.mp hs
      obtain ⟨hfirst, hrest⟩ := List.pairwise_cons.mp hclock
      refine ih (h.serverStep (hfirst a.time List.mem_cons_self) ha) hrest ?_ hs
      exact fun t ht => hlast t (List.mem_cons_of_mem now ht)

theorem reached {vecPlayerID : C} {svcConfig : CSvcConfig} {s : Server C}
    {arrivals : List Arrival} {last : Int} (hclock : (arrivals.map Arrival.time).Pairwise (· ≤ ·))
    (hlast : ∀ t ∈ arrivals.map Arrival.time, t ≤ last)
    (hs : run (Server.step o) (.init vecPlayerID svcConfig) arrivals = some s) :
    Ordered o.authKeyExpireTimePeriod last s.master := by
  cases arrivals with
  | nil => exact Option.some.inj hs ▸ .init _ last vecPlayerID
  | cons a arrivals =>
      have hfirst := (List.pairwise_cons.mp hclock).1
      refine serverRun (.init _ a.time vecPlayerID) (List.pairwise_cons.mpr ⟨?_, hclock⟩) ?_ hs
      · exact List.forall_mem_cons.mpr ⟨Int.le_refl _, hfirst⟩
      · exact List.forall_mem_cons.mpr ⟨hlast a.time List.mem_cons_self, hlast⟩

end Ordered
end TestCodes.SvrMaster
