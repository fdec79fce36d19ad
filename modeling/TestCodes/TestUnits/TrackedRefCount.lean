import TestCodes.TestUnits.CritSectLite
import TestCodes.TestUnits.RefCount

/-! `CRefCount` as the debug version has it (`CRITSECT_DEBUG_REFCOUNT`): the count under a lock, and
a table of the places in the program that have called. -/
namespace TestCodes.TestUnits

open Threads

namespace CRefCount.Tracked

/-- A place in the program: the pointer to the name of the file, and the line. -/
structure FileLine where
  file : ℕ
  line : UInt32
  deriving DecidableEq

structure FileLineInfo extends FileLine where
  count : UInt32
  deriving DecidableEq

def trackerNodeCountMax : ℕ := 32

/-- The members; and the calls that have taken effect and the places that have been tracked, the
last ones first. -/
structure Count (τ : Type*) where
  refcount : Int32
  cs : UInt32
  tracker : List FileLineInfo
  history : List (τ × Call × Int32)
  tracked : List FileLine

inductive Place
  | outside
  | entering (call : Call) (site : FileLine)
  | tracking (call : Call) (site : FileLine) (ii : ℕ)
  | counting (call : Call)
  | storing (call : Call) (copy : Int32)
  | leaving
  deriving DecidableEq

/-- `++tracker[ii].count` -/
def FileLineInfo.again (node : FileLineInfo) : FileLineInfo := { node with count := node.count + 1 }

/-- `refcount += (refcount != 0)` and `refcount -= (refcount > 0)` -/
def counted : Call → Int32 → Int32
  | .refAdd, n => if n ≠ 0 then n + 1 else n
  | .refDec, n => if 0 < n then n - 1 else n

variable {τ : Type*}

def code (t : τ) (call : Call × FileLine) (s : Count τ) : Place → Count τ × Place
  | .outside => (s, .entering call.1 call.2)
  | .entering call site =>
      if s.cs = 0 then ({ s with cs := CCritSectLite.lockFlag }, .tracking call site 0)
      else (s, .entering call site)
  | .tracking call site ii =>
      match s.tracker[ii]? with
      | some node =>
          if node.toFileLine = site then
            ({ s with tracker := s.tracker.set ii node.again, tracked := site :: s.tracked },
              .counting call)
          else (s, .tracking call site (ii + 1))
      | none =>
          -- Without room for another node the place is not tracked.
          if s.tracker.length < trackerNodeCountMax then
            ({ s with tracker := s.tracker ++ [⟨site, 1⟩], tracked := site :: s.tracked },
              .counting call)
          else ({ s with tracked := site :: s.tracked }, .counting call)
  | .counting call => (s, .storing call s.refcount)
  | .storing call copy =>
      ({ s with
          refcount := counted call copy
          history := (t, call, counted call copy) :: s.history }, .leaving)
  | .leaving => ({ s with cs := 0 }, .outside)

def new : Threads τ (Count τ) Place := ⟨⟨1, 0, [], [], []⟩, fun _ => .outside⟩

section CriticalSection

def Place.atCs : Place → CCritSectLite.Place
  | .outside => .outside
  | .entering _ _ => .entering
  | .tracking _ _ _ | .counting _ | .storing _ _ | .leaving => .inside

theorem code_simulates (t : τ) (call : Call × FileLine) (s : Count τ) (l : Place) :
    (code t call s l).1.cs = s.cs ∧ (code t call s l).2.atCs = l.atCs ∨
      ∃ call', CCritSectLite.code t call' s.cs l.atCs =
        ((code t call s l).1.cs, (code t call s l).2.atCs) := by
  cases l with
  | outside => exact .inr ⟨.enter, rfl⟩
  | entering call site =>
      refine .inr ⟨.enter, ?_⟩
      by_cases hfree : s.cs = 0
      · simp only [code, CCritSectLite.code, Place.atCs, if_pos hfree]
      · simp only [code, CCritSectLite.code, Place.atCs, if_neg hfree]
  | tracking call site ii =>
      left
      simp only [code]
      split <;> split <;> exact ⟨rfl, rfl⟩
  | counting call | storing call copy => exact .inl ⟨rfl, rfl⟩
  | leaving => exact .inr ⟨.enter, rfl⟩

/-- One thread at a time has the lock. -/
theorem guarded_of_reaches [DecidableEq τ] {c : Threads τ (Count τ) Place}
    (hc : Reaches code new c) : CCritSectLite.Guarded (view Count.cs Place.atCs c) :=
  CCritSectLite.guarded_of_reaches (hc.simulates code_simulates)

end CriticalSection

section Tracker

/-- The table has a node for each place, with the number of its calls, while there is room. -/
structure Tracks (nodes : List FileLineInfo) (tracked : List FileLine) : Prop where
  nodup : (nodes.map FileLineInfo.toFileLine).Nodup
  room : nodes.length ≤ trackerNodeCountMax
  counts : ∀ node ∈ nodes, node.count = UInt32.ofNat (tracked.count node.toFileLine)
  full : ∀ site ∈ tracked,
    (∃ node ∈ nodes, node.toFileLine = site) ∨ nodes.length = trackerNodeCountMax

namespace Tracks
variable {nodes : List FileLineInfo} {tracked : List FileLine} {site : FileLine}

theorem nil : Tracks [] [] := ⟨List.nodup_nil, Nat.zero_le _, nofun, nofun⟩

theorem again (h : Tracks nodes tracked) {ii : ℕ} {node : FileLineInfo}
    (hnode : nodes[ii]? = some node) :
    Tracks (nodes.set ii node.again) (node.toFileLine :: tracked) := by
  have hsites : (nodes.set ii node.again).map FileLineInfo.toFileLine =
      nodes.map FileLineInfo.toFileLine := by
    apply List.ext_getElem?
    intro j
    rw [List.getElem?_map, List.getElem?_map, List.getElem?_set]
    split
    · rename_i hj
      rw [← hj, if_pos (List.getElem?_eq_some_iff.mp hnode).1, hnode]
      rfl
    · rfl
  refine ⟨?_, ?_, ?_, ?_⟩
  · rw [hsites]
    exact h.nodup
  · rw [List.length_set]
    exact h.room
  · intro other hother
    obtain ⟨j, hj⟩ := List.mem_iff_getElem?.mp hother
    rw [List.getElem?_set] at hj
    split at hj
    · rw [if_pos (List.getElem?_eq_some_iff.mp hnode).1] at hj
      obtain rfl := Option.some.inj hj
      change node.count + 1 = UInt32.ofNat ((node.toFileLine :: tracked).count node.toFileLine)
      rw [List.count_cons_self, UInt32.ofNat_add, h.counts node (List.mem_of_getElem? hnode)]
      rfl
    · rename_i hne
      have hii : ii < (nodes.map FileLineInfo.toFileLine).length := by
        rw [List.length_map]
        exact (List.getElem?_eq_some_iff.mp hnode).1
      have hsite : other.toFileLine ≠ node.toFileLine := by
        intro hsame
        apply hne
        rw [← List.getElem?_inj hii h.nodup, List.getElem?_map, List.getElem?_map, hj, hnode]
        exact congrArg some hsame.symm
      rw [List.count_cons_of_ne hsite.symm]
      exact h.counts other (List.mem_of_getElem? hj)
  · intro site hsite
    rw [List.length_set, ← List.mem_map, hsites, List.mem_map]
    rcases List.mem_cons.mp hsite with rfl | hsite
    · exact .inl ⟨node, List.mem_of_getElem? hnode, rfl⟩
    · exact h.full site hsite

theorem append (h : Tracks nodes tracked) (hnew : ∀ node ∈ nodes, node.toFileLine ≠ site)
    (hroom : nodes.length < trackerNodeCountMax) :
    Tracks (nodes ++ [⟨site, 1⟩]) (site :: tracked) := by
  have hnone : site ∉ tracked := by
    intro hsite
    rcases h.full site hsite with ⟨node, hnode, hsame⟩ | hfull
    · exact hnew node hnode hsame
    · exact Nat.ne_of_lt hroom hfull
  refine ⟨?_, ?_, ?_, ?_⟩
  · rw [List.map_append, List.nodup_append]
    refine ⟨h.nodup, List.nodup_singleton _, ?_⟩
    intro other hother new hsite
    obtain ⟨node, hnode, rfl⟩ := List.mem_map.mp hother
    obtain rfl := List.mem_singleton.mp hsite
    exact hnew node hnode
  · rw [List.length_append]
    exact hroom
  · intro node hnode
    rcases List.mem_append.mp hnode with hnode | hnode
    · rw [List.count_cons_of_ne (hnew node hnode).symm]
      exact h.counts node hnode
    · obtain rfl := List.mem_singleton.mp hnode
      change 1 = UInt32.ofNat ((site :: tracked).count site)
      rw [List.count_cons_self, List.count_eq_zero_of_not_mem hnone]
      rfl
  · intro other hother
    left
    rcases List.mem_cons.mp hother with rfl | hother
    · exact ⟨_, List.mem_append_right _ (List.mem_singleton_self _), rfl⟩
    · rcases h.full other hother with ⟨node, hnode, hsame⟩ | hfull
      · exact ⟨node, List.mem_append_left _ hnode, hsame⟩
      · exact absurd hfull (Nat.ne_of_lt hroom)

theorem ignore (h : Tracks nodes tracked) (hnew : ∀ node ∈ nodes, node.toFileLine ≠ site)
    (hroom : ¬ nodes.length < trackerNodeCountMax) : Tracks nodes (site :: tracked) := by
  have hfull := Nat.le_antisymm h.room (Nat.not_lt.mp hroom)
  refine ⟨h.nodup, h.room, ?_, fun _ _ => .inr hfull⟩
  intro node hnode
  rw [List.count_cons_of_ne (hnew node hnode).symm]
  exact h.counts node hnode

end Tracks
end Tracker

section Runs

/-- What a thread that has the lock has found is still so. -/
def Place.Current (s : Count τ) : Place → Prop
  | .tracking _ site ii => ∀ node ∈ s.tracker.take ii, node.toFileLine ≠ site
  | .storing _ copy => copy = s.refcount
  | .outside | .entering _ _ | .counting _ | .leaving => True

theorem Place.Current.outside {s s' : Count τ} {l : Place} (h : l.Current s)
    (hl : l.atCs ≠ .inside) : l.Current s' := by
  cases l with
  | outside | entering => trivial
  | tracking | counting | storing | leaving => exact absurd rfl hl

structure Kept (c : Threads τ (Count τ) Place) : Prop where
  tracks : Tracks c.shared.tracker c.shared.tracked
  current : ∀ t, (c.place t).Current c.shared

theorem kept_new : Kept (new : Threads τ (Count τ) Place) := ⟨.nil, fun _ => trivial⟩

variable [DecidableEq τ] {c : Threads τ (Count τ) Place}

namespace Kept
variable {e : τ × Call × FileLine}

theorem inside (h : Kept c) (hguarded : CCritSectLite.Guarded (view Count.cs Place.atCs c))
    {l₀ : Place} (hplace : c.place e.1 = l₀) (hin : l₀.atCs = .inside) {s : Count τ} {l : Place}
    (hcode : code e.1 e.2 c.shared l₀ = (s, l)) (htracks : Tracks s.tracker s.tracked)
    (hself : l.Current s) : Kept (step code c e) := by
  subst hplace
  refine ⟨?_, ?_⟩
  · rw [step_shared, hcode]
    exact htracks
  · rw [step_shared, hcode]
    refine forall_step (P := fun _ l => Place.Current s l) ?_ ?_
    · rw [hcode]
      exact hself
    · intro t hte
      exact (h.current t).outside (hguarded.outside hin hte)

theorem quiet (h : Kept c) {cs : UInt32} {l₀ l : Place} (hplace : c.place e.1 = l₀)
    (hcode : code e.1 e.2 c.shared l₀ = ({ c.shared with cs }, l)) (hself : l.Current c.shared) :
    Kept (step code c e) := by
  subst hplace
  have hsame : ∀ l : Place, l.Current c.shared → l.Current { c.shared with cs } := by
    intro l hl
    cases l <;> exact hl
  refine ⟨?_, ?_⟩
  · rw [step_shared, hcode]
    exact h.tracks
  · rw [step_shared, hcode]
    refine forall_step (P := fun _ l => Place.Current { c.shared with cs } l) ?_ ?_
    · rw [hcode]
      exact hsame l hself
    · exact fun t _ => hsame _ (h.current t)

theorem tracks_step (h : Kept c) (hguarded : CCritSectLite.Guarded (view Count.cs Place.atCs c))
    {call : Call} {site : FileLine} {ii : ℕ} (hplace : c.place e.1 = .tracking call site ii) :
    Kept (step code c e) := by
  have hbefore := h.current e.1
  rw [hplace] at hbefore
  cases hnode : c.shared.tracker[ii]? with
  | none =>
      have hnew : ∀ node ∈ c.shared.tracker, node.toFileLine ≠ site := by
        intro node hmem
        apply hbefore
        rw [List.take_of_length_le (List.getElem?_eq_none_iff.mp hnode)]
        exact hmem
      by_cases hroom : c.shared.tracker.length < trackerNodeCountMax
      · have hcode : code e.1 e.2 c.shared (.tracking call site ii) =
            ({ c.shared with
                tracker := c.shared.tracker ++ [⟨site, 1⟩]
                tracked := site :: c.shared.tracked }, .counting call) := by
          simp only [code, hnode, if_pos hroom]
        exact h.inside hguarded hplace rfl hcode (h.tracks.append hnew hroom) trivial
      · have hcode : code e.1 e.2 c.shared (.tracking call site ii) =
            ({ c.shared with tracked := site :: c.shared.tracked }, .counting call) := by
          simp only [code, hnode, if_neg hroom]
        exact h.inside hguarded hplace rfl hcode (h.tracks.ignore hnew hroom) trivial
  | some node =>
      by_cases hsite : node.toFileLine = site
      · subst hsite
        have hcode : code e.1 e.2 c.shared (.tracking call node.toFileLine ii) =
            ({ c.shared with
                tracker := c.shared.tracker.set ii node.again
                tracked := node.toFileLine :: c.shared.tracked }, .counting call) := by
          simp only [code, hnode, if_true]
        exact h.inside hguarded hplace rfl hcode (h.tracks.again hnode) trivial
      · have hcode : code e.1 e.2 c.shared (.tracking call site ii) =
            (c.shared, .tracking call site (ii + 1)) := by
          simp only [code, hnode, if_neg hsite]
        refine h.quiet hplace hcode ?_
        intro other hother
        rw [List.take_add_one, hnode] at hother
        rcases List.mem_append.mp hother with hother | hother
        · exact hbefore other hother
        · obtain rfl := List.mem_singleton.mp hother
          exact hsite

theorem kept_step (h : Kept c) (hguarded : CCritSectLite.Guarded (view Count.cs Place.atCs c)) :
    Kept (step code c e) := by
  cases hplace : c.place e.1 with
  | outside => exact h.quiet hplace rfl trivial
  | entering call site =>
      by_cases hfree : c.shared.cs = 0
      · have hcode : code e.1 e.2 c.shared (.entering call site) =
            ({ c.shared with cs := CCritSectLite.lockFlag }, .tracking call site 0) := by
          simp only [code, if_pos hfree]
        exact h.quiet hplace hcode fun node hnode => absurd hnode List.not_mem_nil
      · have hcode : code e.1 e.2 c.shared (.entering call site) =
            (c.shared, .entering call site) := by
          simp only [code, if_neg hfree]
        exact h.quiet hplace hcode trivial
  | tracking call site ii => exact h.tracks_step hguarded hplace
  | counting call => exact h.quiet hplace rfl rfl
  | storing call copy => exact h.inside hguarded hplace rfl rfl h.tracks trivial
  | leaving => exact h.quiet hplace rfl trivial

end Kept

theorem kept_of_reaches (hc : Reaches code new c) : Kept c :=
  hc.invariant Kept kept_new fun _ _ hc h => h.kept_step (guarded_of_reaches hc)

/-- In every interleaving the table has one node for each place that has called, while there is
room, and none for any place beyond; and each node has counted every call from its place. -/
theorem tracks_callers (hc : Reaches code new c) : Tracks c.shared.tracker c.shared.tracked :=
  (kept_of_reaches hc).tracks

/-- Two threads call from the same place. -/
theorem tracks_callers_two :
    ∃ c : Threads Bool (Count Bool) Place, Reaches code new c ∧
      c.shared.tracker = [⟨⟨0, 7⟩, 2⟩] ∧ Tracks c.shared.tracker [⟨0, 7⟩, ⟨0, 7⟩] := by
  let c : Threads Bool (Count Bool) Place := run code new
    (List.replicate 6 (true, .refAdd, ⟨0, 7⟩) ++ List.replicate 3 (false, .refDec, ⟨0, 7⟩))
  have hc : Reaches code new c := ⟨_, rfl⟩
  exact ⟨c, hc, by decide, tracks_callers hc⟩

/-- From a count that is not negative a call does what it does in the release version. -/
theorem atOnce_eq (call : Call) {n : Int32} (hn : 0 ≤ n.toInt) :
    call.atOnce n = (counted call n, counted call n) := by
  have hdead : n ≤ 0 ↔ n = 0 := by
    rw [Int32.le_iff_toInt_le, eq_zero_iff]
    change n.toInt ≤ 0 ↔ _
    omega
  have hpos : 0 < n ↔ ¬ n = 0 := by
    rw [Int32.lt_iff_toInt_lt, eq_zero_iff]
    change 0 < n.toInt ↔ _
    omega
  cases call with
  | refAdd =>
      by_cases hzero : n = 0
      · rw [hzero]
        rfl
      · have hne : n ≠ 0 := hzero
        simp only [Call.atOnce, counted, if_neg (hdead.not.mpr hzero), if_pos hne]
  | refDec =>
      by_cases hzero : n = 0
      · rw [hzero]
        rfl
      · simp only [Call.atOnce, counted, if_neg (hdead.not.mpr hzero), if_pos (hpos.mpr hzero)]

theorem counted_le (call : Call) {n : Int32} (hn : 0 ≤ n.toInt) (hlt : n.toInt + 1 < 2 ^ 31) :
    0 ≤ (counted call n).toInt ∧ (counted call n).toInt ≤ n.toInt + 1 := by
  cases call with
  | refAdd =>
      have hadd := toInt_succ hlt
      simp only [counted]
      split <;> omega
  | refDec =>
      simp only [counted]
      split
      · rename_i hgreater
        have hpos : 0 < n.toInt := Int32.lt_iff_toInt_lt.mp hgreater
        have hsub := toInt_pred hpos
        omega
      · omega

omit [DecidableEq τ] in
/-- A history of fewer calls than the count can hold is also one of the release version. -/
theorem sequential_released {history : List (τ × Call × Int32)} {n : Int32}
    (h : Sequential (fun call n => (counted call n, counted call n)) 1 history n)
    (hfew : history.length < 2 ^ 31 - 1) :
    Sequential Call.atOnce 1 history n ∧ 0 ≤ n.toInt ∧ n.toInt ≤ history.length + 1 := by
  induction history generalizing n with
  | nil =>
      obtain rfl : n = 1 := h
      exact ⟨rfl, by decide, le_refl (1 : ℤ)⟩
  | cons entry earlier ih =>
      obtain ⟨t, call, answer⟩ := entry
      obtain ⟨b, hb, hcall⟩ := h
      rw [List.length_cons] at hfew
      obtain ⟨hreleased, hlow, hhigh⟩ := ih hb (by omega)
      obtain rfl : counted call b = n := congrArg Prod.fst hcall
      have hnext := counted_le call hlow (by omega)
      refine ⟨⟨b, hreleased, (atOnce_eq call hlow).trans hcall⟩, hnext.1, ?_⟩
      rw [List.length_cons]
      push_cast
      omega

/-- Whatever the threads call, in every interleaving of fewer calls than the count can hold the
debug version answers and counts as the release version does when each call is made at once. -/
theorem counts_as_released (hc : Reaches code new c)
    (hfew : c.shared.history.length < 2 ^ 31 - 1) :
    Sequential Call.atOnce 1 c.shared.history c.shared.refcount := by
  refine (sequential_released ?_ hfew).1
  refine hc.sequential (fun call n => (counted call n, counted call n)) Count.refcount
    Count.history rfl ?_
  intro c e hc
  rw [step_shared]
  cases hplace : c.place e.1 with
  | outside | counting | leaving => exact .inl ⟨rfl, rfl⟩
  | entering call site =>
      left
      simp only [code]
      split <;> exact ⟨rfl, rfl⟩
  | tracking call site ii =>
      left
      simp only [code]
      split <;> split <;> exact ⟨rfl, rfl⟩
  | storing call copy =>
      have hcopy := (kept_of_reaches hc).current e.1
      rw [hplace] at hcopy
      obtain rfl : copy = c.shared.refcount := hcopy
      exact .inr ⟨call, rfl, rfl⟩

/-- A thread waits for the lock while another one drops the last reference. -/
theorem counts_as_released_two :
    ∃ c : Threads Bool (Count Bool) Place, Reaches code new c ∧
      c.shared.history = [(false, .refAdd, 0), (true, .refDec, 0)] ∧
      Sequential Call.atOnce 1 c.shared.history c.shared.refcount := by
  let c : Threads Bool (Count Bool) Place := run code new
    (List.replicate 2 (true, .refDec, ⟨0, 7⟩) ++ List.replicate 2 (false, .refAdd, ⟨0, 9⟩) ++
      List.replicate 4 (true, .refDec, ⟨0, 7⟩) ++ List.replicate 5 (false, .refAdd, ⟨0, 9⟩))
  have hc : Reaches code new c := ⟨_, rfl⟩
  exact ⟨c, hc, by decide, counts_as_released hc (by decide)⟩

end Runs

end CRefCount.Tracked
end TestCodes.TestUnits
