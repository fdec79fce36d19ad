import TestCodes.SvrMaster.LogoutNotices
import TestCodes.SvrMaster.PlayerRegistry

/-! The players that a community server reports to a restarted master. They are in
the game already, but `LogIn` lets them wait for a check-in like any other. -/
namespace TestCodes.SvrMaster
open Machine

/-- The player at `p` is registered under the UID and waits under its key. -/
structure Held {C : Type} (uid : UID) (p : Ptr) (s : Session) (m : Master C) : Prop where
  find : m.mapUserUID.find uid = some p
  alive : ∃ x, m.heap.find p = some x ∧ x.sessionKey = s.sessionKey
  alone : ∀ u, m.mapUserUID.find u = some p → u = uid
  entry : ∀ k, m.mapUserSession.find k = some p ↔ k = s.sessionKey
  waits : s ∈ m.validator.listWaitSessions
  unique : ∀ s' ∈ m.validator.listWaitSessions, s'.sessionKey = s.sessionKey → s' = s

def Gone {C : Type} (p : Ptr) (m : Master C) : Prop := m.heap.find p = none ∧ p < m.nextPtr

section
variable {C : Type} {o : Outside C} {now : Int} {room : ℕ} {m m' : Master C} {uid : UID}
  {p : Ptr} {s : Session}

theorem Held.logIn (h : Registry (room + 1) m)
    (hu : m.getPlayerByUID uid = none) (account : String) (keySvr : LKEY) :
    Held uid m.nextPtr ⟨m.validator.nextKey, now + o.authKeyExpireTimePeriod⟩
      (m.logInUpdate o now uid account keySvr) where
  find := StdMap.find_insertNew_self hu m.nextPtr
  alive := by
    refine ⟨m.newPlayer o uid account keySvr, ?_, rfl⟩
    simp only [Master.logInUpdate, StdMap.find_set, ↓reduceIte]
  alone u hf := by
    rcases StdMap.find_insertNew_some hf with hf | ⟨hf, -⟩
    · exact absurd (h.uidBound u _ hf) (Nat.lt_irrefl _)
    · exact hf
  entry k := by
    have hnone : m.mapUserSession.find m.validator.nextKey = none := by
      cases hf : m.mapUserSession.find m.validator.nextKey with
      | none => rfl
      | some q => exact absurd rfl (h.ne_nextKey (h.entries _ q hf))
    constructor
    · intro hf
      rcases StdMap.find_insertNew_some hf with hf | ⟨hf, -⟩
      · exact absurd (h.sessionBound k _ hf) (Nat.lt_irrefl _)
      · exact hf
    · rintro rfl
      exact StdMap.find_insertNew_self hnone m.nextPtr
  waits := List.mem_append_right _ (List.mem_singleton_self _)
  unique s' hs' hkey := by
    rcases List.mem_append.mp hs' with hs' | hs'
    · exact absurd hkey (h.ne_nextKey (h.waiting s' hs'))
    · exact List.mem_singleton.mp hs'

theorem Held.issue (h : Held uid p s m) (hr : Registry (room + 1) m)
    {q : Ptr} (hi : Issues o now q m m') (hq : q ≠ p)
    (find : m'.mapUserUID.find uid = some p)
    (alone : ∀ u, m'.mapUserUID.find u = some p → u = uid) : Held uid p s m' where
  find := find
  alive := by
    obtain ⟨x, hx, hkey⟩ := h.alive
    obtain ⟨player, -, hheap⟩ := hi.heap
    exact ⟨x, by rw [hheap, StdMap.find_set, if_neg hq.symm, hx], hkey⟩
  alone := alone
  entry k := by
    rw [hi.session, ← h.entry k]
    constructor
    · intro hf
      rcases StdMap.find_insertNew_some hf with hf | ⟨-, hf⟩
      · exact hf
      · exact absurd hf.symm hq
    · intro hf
      rw [StdMap.find_insertNew_ne _ (hr.ne_nextKey (hr.entries k p hf)), hf]
  waits := by
    rw [hi.validator]
    exact List.mem_append_left _ h.waits
  unique s' hs' hkey := by
    rw [hi.validator] at hs'
    rcases List.mem_append.mp hs' with hs' | hs'
    · exact h.unique s' hs' hkey
    · rw [List.mem_singleton.mp hs'] at hkey
      exact absurd hkey.symm (hr.ne_nextKey (hr.waiting s h.waits))

theorem Held.checkIn (h : Held uid p s m) {player : CPlayer}
    (hkey : player.sessionKey ≠ s.sessionKey) : Held uid p s (m.playerCheckInUpdate player) where
  find := h.find
  alive := h.alive
  alone := h.alone
  entry k := by
    simp only [Master.playerCheckInUpdate, StdMap.find_eraseKey]
    by_cases hk : k = player.sessionKey
    · simp [hk, hkey]
    · rw [if_neg hk, h.entry]
  waits := (List.mem_eraseP_of_neg (by simpa using hkey.symm)).mpr h.waits
  unique s' hs' := h.unique s' (List.eraseP_subset hs')

theorem Held.logOut (h : Held uid p s m) (hr : Registry room m) {q : Ptr}
    {player : CPlayer} (hl : m.heap.find q = some player) (hq : q ≠ p) :
    Held uid p s (m.logOutUpdate o q player) := by
  obtain ⟨x, hx, hkey⟩ := h.alive
  have hne : player.sessionKey ≠ s.sessionKey :=
    fun he => hq (hr.ownKey q p player x hl hx (he.trans hkey.symm))
  have huid : uid ≠ player.uid := by
    intro he
    have hf := hr.named q player hl
    rw [← he, h.find] at hf
    exact hq (Option.some.inj hf).symm
  refine ⟨?_, ⟨x, ?_, hkey⟩, ?_, ?_, h.waits, h.unique⟩
  · simp only [Master.logOutUpdate]
    split
    · rw [StdMap.find_eraseKey, if_neg huid, h.find]
    · exact h.find
  · simp only [Master.logOutUpdate, StdMap.find_eraseKey, if_neg hq.symm, hx]
  · intro u hu
    simp only [Master.logOutUpdate] at hu
    split at hu
    · exact h.alone u (StdMap.find_eraseKey_some hu).2
    · exact h.alone u hu
  · intro k
    simp only [Master.logOutUpdate, StdMap.find_eraseKey]
    by_cases hk : k = player.sessionKey
    · simp [hk, hne]
    · rw [if_neg hk, h.entry]

theorem Held.change (h : Held uid p s m) {q : Ptr} {player : CPlayer}
    (hl : m.heap.find q = some player) (playerAuthKey : UInt64) (svrKey : LKEY) :
    Held uid p s { m with heap := m.heap.set q { player with playerAuthKey, svrKey } } where
  find := h.find
  alive := by
    obtain ⟨x, hx, hkey⟩ := h.alive
    simp only [StdMap.find_set]
    split
    · rename_i hpq
      rw [hpq, hl] at hx
      exact ⟨_, rfl, Option.some.inj hx ▸ hkey⟩
    · exact ⟨x, hx, hkey⟩
  alone := h.alone
  entry := h.entry
  waits := h.waits
  unique := h.unique

theorem leaver_player {op : Op} {q : Ptr} (h : m.leaver op = some q) (hop : op.expires = false) :
    ∃ u, op.player = some u ∧ m.getPlayerByUID u = some q := by
  cases op with
  | logOut u sender => exact ⟨u, rfl, (Option.filter_eq_some_iff.mp h).1⟩
  | logOutForce u => exact ⟨u, rfl, h⟩
  | expireSession key => cases hop
  | _ => cases h

/-- A call on another player leaves the player waiting. -/
theorem Held.step (h : Held uid p s m) {e : Event}
    (hr : Registry (room + if e.op.drawsKey then 1 else 0) m)
    (he : e.op.expires = false) (hother : e.op.player ≠ some uid) (hm : m.step o e = some m') :
    Held uid p s m' := by
  have hop : e.op ≠ .tickProcess := by
    intro hop
    rw [hop] at he
    cases he
  have apart : ∀ u q, e.op.player = some u → m.getPlayerByUID u = some q → q ≠ p := by
    rintro u q hu hq rfl
    exact hother (h.alone u hq ▸ hu)
  cases Master.step_cases hop hm with
  | same => exact h
  | @loggedIn u account keySvr hlog _ hu =>
      rw [hlog] at hr
      have hne : m.nextPtr ≠ p := (Nat.ne_of_lt (hr.uidBound uid p h.find)).symm
      refine h.issue hr (.logIn o e.time u account keySvr m) hne ?_ ?_
      · exact (StdMap.find_insertNew_ne _ (StdMap.ne_of_find h.find hu) _).trans h.find
      · intro v hv
        rcases StdMap.find_insertNew_some hv with hv | ⟨-, hv⟩
        · exact h.alone v hv
        · exact absurd hv.symm hne
  | @checkedIn u q player hcheck hcall hl =>
      have hq : m.getPlayerByUID u = some q := by
        rw [Master.sessionCall, hcheck] at hcall
        obtain ⟨r, hr', hpair⟩ := Option.map_eq_some_iff.mp hcall
        rw [hr', (Prod.mk.inj hpair).1]
      have hqp := apart u q (by rw [hcheck]; rfl) hq
      obtain ⟨x, hx, hkey⟩ := h.alive
      exact h.checkIn fun hk => hqp (hr.ownKey q p player x hl hx (hk.trans hkey.symm))
  | @reserved u q player hres _ hq hl =>
      have hqp := apart u q (by rw [hres]; rfl) hq
      rw [hres] at hr
      exact h.issue hr (.reserve o e.time q player m) hqp h.find h.alone
  | @loggedOut q player _ hleave hl =>
      obtain ⟨u, hu, hq⟩ := leaver_player hleave he
      exact h.logOut hr hl (apart u q hu hq)
  | changed playerAuthKey svrKey _ hl => exact h.change hl playerAuthKey svrKey

theorem Gone.logOut (h : Gone p m) (q : Ptr) (player : CPlayer) :
    Gone p (m.logOutUpdate o q player) := by
  refine ⟨?_, h.2⟩
  simp only [Master.logOutUpdate, StdMap.find_eraseKey, h.1, ite_self]

theorem Gone.set (h : Gone p m) {q : Ptr} {x : CPlayer} (hl : m.heap.find q = some x)
    (y : CPlayer) : (m.heap.set q y).find p = none := by
  rw [StdMap.find_set, if_neg (StdMap.ne_of_find hl h.1).symm, h.1]

theorem Gone.step (h : Gone p m) {e : Event} (he : e.op.expires = false)
    (hm : m.step o e = some m') : Gone p m' := by
  have hop : e.op ≠ .tickProcess := by
    intro hop
    rw [hop] at he
    cases he
  cases Master.step_cases hop hm with
  | same | checkedIn => exact h
  | loggedIn =>
      refine ⟨?_, Nat.lt_succ_of_lt h.2⟩
      simp only [Master.logInUpdate, StdMap.find_set, if_neg (Nat.ne_of_lt h.2), h.1]
  | reserved _ _ _ hl => exact ⟨h.set hl _, h.2⟩
  | loggedOut => exact h.logOut _ _
  | changed _ _ _ hl => exact ⟨h.set hl _, h.2⟩

theorem Gone.tick (h : Gone p m) {timeCur : Int} {ss : List Session}
    (hm : m.tickSessions o timeCur ss = some m') : Gone p m' :=
  Master.tickSessions_invariant (Gone p) (fun _ q player h _ => h.logOut q player)
    (fun _ h => ⟨h.1, h.2⟩) hm h

/-- The front session leaves the list; unless it is the player's own, the player stays. -/
theorem Held.expire (h : Held uid p s m) (hr : Registry room m) {a : Session}
    {rest : List Session} (hw : m.validator.listWaitSessions = a :: rest)
    (ha : a.sessionKey ≠ s.sessionKey) {m₁ : Master C}
    (hm : m.expireSession o a.sessionKey = some m₁) :
    Held uid p s m₁.popFront ∧ m₁.popFront.validator.listWaitSessions = rest := by
  have h₁ : Held uid p s m₁ ∧ m₁.validator = m.validator := by
    rcases Master.logOutFound_cases hm with rfl | ⟨q, player, hq, hl, rfl⟩
    · exact ⟨h, rfl⟩
    · refine ⟨h.logOut hr hl ?_, rfl⟩
      rintro rfl
      exact ha ((h.entry _).mp hq)
  obtain ⟨h₁, hv⟩ := h₁
  have hrest : m₁.popFront.validator.listWaitSessions = rest := by
    simp only [Master.popFront, hv, hw, List.tail_cons]
  refine ⟨⟨h₁.find, h₁.alive, h₁.alone, h₁.entry, ?_, ?_⟩, hrest⟩
  · have hs := h₁.waits
    rw [hv, hw] at hs
    rw [hrest]
    apply (List.mem_cons.mp hs).resolve_left
    rintro rfl
    exact ha rfl
  · intro s' hs'
    rw [hrest] at hs'
    apply h₁.unique s'
    rw [hv, hw]
    exact List.mem_cons_of_mem a hs'

/-- A tick deletes the player only when its session is due, and then always if the
list stands in the order of expiry: no session before it stops the tick. -/
theorem Held.tick {timeCur : Int} {l : List Session} (h : Held uid p s m)
    (hr : Registry room m) (hw : m.validator.listWaitSessions = l)
    (hm : m.tickSessions o timeCur l = some m') :
    Held uid p s m' ∧ ((l.Pairwise fun s s' => s.timeExpiration ≤ s'.timeExpiration) →
        timeCur < s.timeExpiration) ∨
      Gone p m' ∧ s.timeExpiration ≤ timeCur := by
  induction l generalizing m with
  | nil =>
      have hs := h.waits
      rw [hw] at hs
      cases hs
  | cons a rest ih =>
      have hs := h.waits
      rw [hw] at hs
      unfold Master.tickSessions at hm
      split at hm
      · rename_i hlate
        refine .inl ⟨Option.some.inj hm ▸ h, fun hsorted => ?_⟩
        rcases List.mem_cons.mp hs with rfl | hmem
        · exact hlate
        · exact Int.lt_of_lt_of_le hlate (List.rel_of_pairwise_cons hsorted hmem)
      · rename_i hdue
        obtain ⟨m₁, hexp, hm⟩ := Option.bind_eq_some_iff.mp hm
        by_cases ha : a.sessionKey = s.sessionKey
        · obtain rfl := h.unique a (by rw [hw]; exact List.mem_cons_self) ha
          have hp := (h.entry a.sessionKey).mpr rfl
          rw [Master.expireSession, hp] at hexp
          obtain ⟨player, hl, rfl⟩ := Master.logOutPlayer_cases hexp
          have hgone : Gone p (m.logOutUpdate o p player).popFront := by
            refine ⟨?_, hr.lt_nextPtr hl⟩
            simp only [Master.popFront, Master.logOutUpdate, StdMap.find_eraseKey, ↓reduceIte]
          exact .inr ⟨hgone.tick hm, Int.not_lt.mp hdue⟩
        · obtain ⟨h₁, hrest⟩ := h.expire hr hw ha hexp
          rcases ih h₁ (hr.expire hexp).popFront hrest hm with ⟨hend, hearly⟩ | hend
          · exact .inl ⟨hend, fun hsorted => hearly (List.Pairwise.of_cons hsorted)⟩
          · exact .inr hend

theorem Held.makes {target : Option UID} {actions : List Action} {keys : ℕ}
    (h : Held uid p s m) (hr : Registry (room + keys) m)
    (hother : target ≠ some uid) (hm : Makes o now target actions keys m m') :
    Held uid p s m' := by
  refine (hm.invariant (fun k m => Registry k m ∧ Held uid p s m)
    ?_ ?_ ⟨hr, h⟩).2
  · rintro m n k hle ⟨hn, hheld⟩
    exact ⟨hn.mono hle, hheld⟩
  · rintro k m e m' ⟨hk, hheld⟩ ⟨-, hserves⟩ he
    have hne : e.op.player ≠ some uid := fun hu => hother (hserves.player uid hu)
    exact ⟨hk.step hserves.keeps he, hheld.step hk hserves.keeps hne he⟩

theorem Gone.makes {target : Option UID} {actions : List Action} {keys : ℕ} (h : Gone p m)
    (hm : Makes o now target actions keys m m') : Gone p m' := by
  apply hm.invariant (fun _ m => Gone p m) (fun _ _ _ _ h => h) ?_ (k := 0) h
  intro _ m e m' hgone he hstep
  exact hgone.step he.2.keeps hstep

/-- The UID that the report registers first is the one that waits. -/
theorem Held.allPlayerInfo {cfg : CSvcConfig} {pFrom : CVSock} {players : List (UID × String)}
    (hr : Registry (room + players.length) m)
    (hu : m.getPlayerByUID uid = none)
    (hp : (m.allPlayerInfo o cfg now pFrom players).2.2.getPlayerByUID uid = some p) :
    ∃ key, Held uid p ⟨key, now + o.authKeyExpireTimePeriod⟩
      (m.allPlayerInfo o cfg now pFrom players).2.2 := by
  induction players generalizing m with
  | nil =>
      rw [Master.allPlayerInfo_nil, hu] at hp
      cases hp
  | cons player players ih =>
      obtain ⟨v, account⟩ := player
      rw [List.length_cons, ← Nat.add_assoc] at hr
      have hskip : Registry (room + players.length) m :=
        hr.mono (Nat.le_succ _)
      rw [Master.allPlayerInfo_cons] at hp ⊢
      split at hp
      · rename_i hv
        rw [if_pos hv]
        exact ih hskip hu hp
      · rename_i hv
        rw [if_neg hv]
        rw [Option.not_isSome_iff_eq_none] at hv
        unfold Master.logIn at hp ⊢
        rw [hv] at hp ⊢
        simp only [Option.isSome_none, Bool.false_eq_true, ↓reduceIte] at hp ⊢
        split at hp
        · rename_i haccount
          rw [if_pos haccount]
          exact ih hskip hu hp
        · rename_i haccount
          rw [if_neg haccount]
          have hnext : Registry (room + players.length)
              (m.logInUpdate o now v account (cfg.findServerKey pFrom)) := hr.logIn hv ..
          by_cases hvu : v = uid
          · subst hvu
            have hheld : Held v _ _
                (m.logInUpdate o now v account (cfg.findServerKey pFrom)) := .logIn hr hv ..
            have hmakes : Makes o now none [] players.length _
                ((m.logInUpdate o now v account (cfg.findServerKey pFrom)).allPlayerInfo o cfg now
                  pFrom players).2.2 := Makes.allPlayerInfo ..
            have hend := hheld.makes hnext (by simp) hmakes
            obtain rfl := Option.some.inj (hend.find.symm.trans hp)
            exact ⟨_, hend⟩
          · apply ih hnext ?_ hp
            exact (StdMap.find_insertNew_ne _ (Ne.symm hvu) _).trans hu

theorem Held.serverStep {t t' : Server C} {a : Arrival} (h : Held uid p s t.master)
    (hr : Registry (room + a.input.keys) t.master) (hother : a.input.player ≠ some uid)
    (ht : t.step o a = some t') :
    Held uid p s t'.master ∧ (∀ now, Ordered o.authKeyExpireTimePeriod now t.master →
        a.input = .tick → a.time < s.timeExpiration) ∨
      Gone p t'.master ∧ a.input = .tick ∧ s.timeExpiration ≤ a.time := by
  cases Server.step_cases ht with
  | handled hin hm =>
      rw [hin] at hr hother
      refine .inl ⟨h.makes hr hother (Makes.handler hm), fun _ _ htick => ?_⟩
      rw [hin] at htick
      cases htick
  | ticked hin hm =>
      rcases h.tick hr rfl hm with ⟨hend, hearly⟩ | ⟨hend, hdue⟩
      · exact .inl ⟨hend, fun _ hordered _ => hearly hordered.sorted⟩
      · exact .inr ⟨hend, hin, hdue⟩
  | configured _ hin =>
      refine .inl ⟨h, fun _ _ htick => ?_⟩
      rw [hin] at htick
      cases htick

theorem Gone.serverStep {t t' : Server C} {a : Arrival} (h : Gone p t.master)
    (ha : t.step o a = some t') : Gone p t'.master := by
  cases Server.step_cases ha with
  | handled _ hm => exact h.makes (Makes.handler hm)
  | ticked _ hm => exact h.tick hm
  | configured => exact h

theorem Gone.serverRun {t t' : Server C} {arrivals : List Arrival} (h : Gone p t.master)
    (ht : run (Server.step o) t arrivals = some t') : Gone p t'.master :=
  run_keeps (fun t => Gone p t.master) (fun _ _ _ h ha => h.serverStep ha) h ht

/-- A run deletes the player only when one of its ticks finds the session due, and
then always if the clock does not go back. -/
theorem Held.serverRun {t t' : Server C} {arrivals : List Arrival} (h : Held uid p s t.master)
    (hr : Registry (room + (arrivals.map fun a => a.input.keys).sum) t.master)
    (hother : ∀ a ∈ arrivals, a.input.player ≠ some uid)
    (ht : run (Server.step o) t arrivals = some t') :
    Held uid p s t'.master ∧ (∀ now, Ordered o.authKeyExpireTimePeriod now t.master →
        (now :: arrivals.map Arrival.time).Pairwise (· ≤ ·) →
        ∀ a ∈ arrivals, a.input = .tick → a.time < s.timeExpiration) ∨
      Gone p t'.master ∧ ∃ a ∈ arrivals, a.input = .tick ∧ s.timeExpiration ≤ a.time := by
  induction arrivals generalizing t with
  | nil => exact .inl ⟨Option.some.inj ht ▸ h, fun _ _ _ a ha => by cases ha⟩
  | cons a arrivals ih =>
      rw [run_cons] at ht
      obtain ⟨t₁, ha, ht⟩ := Option.bind_eq_some_iff.mp ht
      rw [List.map_cons, List.sum_cons, Nat.add_comm a.input.keys, ← Nat.add_assoc] at hr
      rcases h.serverStep hr (hother a List.mem_cons_self) ha with ⟨hheld, hearly⟩ | ⟨hgone, hdue⟩
      · obtain ⟨hheld, hticks⟩ | ⟨hgone, b, hb, hdue⟩ := ih hheld (hr.serverStep ha)
          (fun b hb => hother b (List.mem_cons_of_mem a hb)) ht
        · refine .inl ⟨hheld, fun now hordered hclock => ?_⟩
          obtain ⟨hfirst, hrest⟩ := List.pairwise_cons.mp hclock
          have hnext := hordered.serverStep (hfirst a.time List.mem_cons_self) ha
          exact List.forall_mem_cons.mpr ⟨hearly now hordered, hticks a.time hnext hrest⟩
        · exact .inr ⟨hgone, b, List.mem_cons_of_mem a hb, hdue⟩
      · exact .inr ⟨hgone.serverRun ht, a, List.mem_cons_self, hdue⟩

end

end TestCodes.SvrMaster
