import TestCodes.TestUnitsNew.DebugAssignLiterals
import Mathlib.Order.Basic

/-! The assignments that `DebugAssignString` generates, and the bytes they store. -/
namespace TestCodes.TestUnitsNew
open CharLiteral (Reader Plain plain_of_all quote msvc)

def chunks (rest : List UInt8) (assignIdx : ℕ) : List Assignment :=
  if h : rest = [] then [] else chunk rest assignIdx :: chunks (rest.drop 4) (assignIdx + 4)
termination_by rest.length
decreasing_by
  have hpos : 0 < rest.length := List.length_pos_iff.mpr h
  rw [List.length_drop]
  omega

def assigned (uninit : UInt8) (rest : List UInt8) (assignIdx lenOfPtr : ℕ) : List Assignment :=
  if lenOfPtr % 4 = 0 then chunks (rest.take lenOfPtr) assignIdx
  else if lenOfPtr % 4 = 3 ∧ lenOfPtr < rest.length + 3 then
    chunks (rest.take (lenOfPtr - 3)) assignIdx ++
      lastThree uninit (rest.drop (lenOfPtr - 3)) (assignIdx + (lenOfPtr - 3))
  else chunks rest assignIdx

/-- The "&" that is put when the bytes have run out and the string has not. -/
def trailing (rest : List UInt8) (lenOfPtr : ℕ) : List Piece :=
  if lenOfPtr % 4 = 0 ∧ lenOfPtr < rest.length then [.amp] else []

theorem joined_cons (a : Assignment) {as : List Assignment} (has : as ≠ []) :
    joined (a :: as) = .assign a :: .amp :: joined as := by
  cases as with
  | nil => exact absurd rfl has
  | cons b bs => rfl

theorem chunks_nil (assignIdx : ℕ) : chunks [] assignIdx = [] := by
  rw [chunks, dif_pos rfl]

theorem chunks_of_ne_nil {rest : List UInt8} (hrest : rest ≠ []) (assignIdx : ℕ) :
    chunks rest assignIdx =
      chunk rest assignIdx :: chunks (rest.drop 4) (assignIdx + 4) := by
  rw [chunks, dif_neg hrest]

theorem chunks_ne_nil {rest : List UInt8} (hrest : rest ≠ []) (assignIdx : ℕ) :
    chunks rest assignIdx ≠ [] := by
  rw [chunks_of_ne_nil hrest]
  exact List.cons_ne_nil _ _

theorem chunk_take {rest : List UInt8} {n : ℕ} (hn : 4 ≤ n) (assignIdx : ℕ) :
    chunk (rest.take n) assignIdx = chunk rest assignIdx := by
  have hmin : min 4 (min n rest.length) = min 4 rest.length := by omega
  have hpad : 4 - min n rest.length = 4 - rest.length := by omega
  unfold chunk
  rw [List.take_take, Nat.min_eq_left hn, List.length_take, hmin, hpad]

theorem chunks_short {rest : List UInt8} (hrest : rest ≠ []) (hlen : rest.length ≤ 4)
    (assignIdx : ℕ) : chunks rest assignIdx = [chunk rest assignIdx] := by
  rw [chunks_of_ne_nil hrest, List.drop_of_length_le hlen, chunks_nil]

theorem assigned_step (uninit : UInt8) {rest : List UInt8} {n : ℕ} (assignIdx : ℕ)
    (hrest : 4 < rest.length) (hn : 4 ≤ n) :
    assigned uninit rest assignIdx n =
      chunk rest assignIdx :: assigned uninit (rest.drop 4) (assignIdx + 4) (n - 4) := by
  have hne : rest ≠ [] := List.ne_nil_of_length_pos (by omega)
  have htake : ∀ k, 4 ≤ k → chunks (rest.take k) assignIdx =
      chunk rest assignIdx :: chunks ((rest.drop 4).take (k - 4)) (assignIdx + 4) := by
    intro k hk
    have hk' : rest.take k ≠ [] := by
      intro h
      rcases List.take_eq_nil_iff.mp h with h | h
      · omega
      · exact hne h
    rw [chunks_of_ne_nil hk', chunk_take hk, List.drop_take]
  have hmod : (n - 4) % 4 = n % 4 := by omega
  have hend : n - 4 < (rest.drop 4).length + 3 ↔ n < rest.length + 3 := by
    rw [List.length_drop]
    omega
  unfold assigned
  simp only [hmod, hend]
  split
  · rw [htake n hn]
  split
  · rename_i h0 h3
    have hidx : assignIdx + 4 + (n - 4 - 3) = assignIdx + (n - 3) := by omega
    have hdrop : 4 + (n - 4 - 3) = n - 3 := by omega
    rw [htake (n - 3) (by omega), List.drop_drop, hidx, hdrop, Nat.sub_right_comm]
    rfl
  · rw [chunks_of_ne_nil hne]

theorem assigned_all (uninit : UInt8) {rest : List UInt8} (assignIdx : ℕ) {n : ℕ}
    (h0 : n % 4 ≠ 0) (h3 : n % 4 ≠ 3) :
    assigned uninit rest assignIdx n = chunks rest assignIdx := by
  unfold assigned
  rw [if_neg h0, if_neg fun h => h3 h.1]

theorem assigned_short (uninit : UInt8) {rest : List UInt8} (assignIdx : ℕ) {n : ℕ}
    (h0 : n ≠ 0) (h3 : n ≠ 3) (hrest : rest.length ≤ 4) :
    assigned uninit rest assignIdx n = chunks rest assignIdx := by
  unfold assigned
  by_cases hn : n % 4 = 0
  · rw [if_pos hn, List.take_of_length_le (by omega)]
  · rw [if_neg hn, if_neg (by omega)]

theorem toNat_sub_four {r : UInt32} (h : 4 ≤ r.toNat) : (r - 4).toNat = r.toNat - 4 := by
  rw [UInt32.toNat_sub_of_le _ _ (by rwa [UInt32.le_iff_toNat_le])]
  rfl

theorem toNat_sub_four_mod (r : UInt32) : (r - 4).toNat % 4 = r.toNat % 4 := by
  have hr : r.toNat < 2 ^ 32 := r.toNat_lt
  rw [UInt32.toNat_sub]
  change (2 ^ 32 - 4 + r.toNat) % 2 ^ 32 % 4 = _
  omega

theorem assignRest_nil (uninit : UInt8) (assignIdx : ℕ) (r : UInt32) :
    assignRest uninit [] assignIdx r = [] := by
  rw [assignRest, if_pos (.inl rfl)]

theorem assignRest_zero (uninit : UInt8) (rest : List UInt8) (assignIdx : ℕ) :
    assignRest uninit rest assignIdx 0 = [] := by
  rw [assignRest, if_pos (.inr rfl)]

theorem assigned_nil (uninit : UInt8) (assignIdx n : ℕ) : assigned uninit [] assignIdx n = [] := by
  have h3 : ¬ (n % 4 = 3 ∧ n < ([] : List UInt8).length + 3) := by
    rw [List.length_nil]
    omega
  unfold assigned
  rw [List.take_nil, if_neg h3, chunks_nil, ite_self]

theorem assigned_zero (uninit : UInt8) (rest : List UInt8) (assignIdx : ℕ) :
    assigned uninit rest assignIdx 0 = [] := by
  rw [assigned, if_pos rfl, List.take_zero, chunks_nil]

theorem assigned_three (uninit : UInt8) {rest : List UInt8} (hrest : rest ≠ [])
    (assignIdx : ℕ) : assigned uninit rest assignIdx 3 = lastThree uninit rest assignIdx := by
  have hpos : 0 < rest.length := List.length_pos_iff.mpr hrest
  rw [assigned, if_neg (by omega), if_pos (by omega), Nat.sub_self, List.take_zero, chunks_nil]
  rfl

theorem assigned_ne_nil (uninit : UInt8) {rest : List UInt8} (hrest : rest ≠ []) (assignIdx : ℕ)
    {n : ℕ} (hn : n ≠ 0) : assigned uninit rest assignIdx n ≠ [] := by
  unfold assigned
  split
  · apply chunks_ne_nil
    intro h
    rcases List.take_eq_nil_iff.mp h with h | h
    · exact hn h
    · exact hrest h
  split
  · exact List.append_ne_nil_of_right_ne_nil _ (List.cons_ne_nil _ _)
  · exact chunks_ne_nil hrest assignIdx

theorem assigned_next (uninit : UInt8) {rest : List UInt8} (assignIdx : ℕ) {r : UInt32}
    (h0 : r.toNat ≠ 0) (h3 : r.toNat ≠ 3) (hrest : 4 < rest.length) :
    assigned uninit rest assignIdx r.toNat =
      chunk rest assignIdx ::
        assigned uninit (rest.drop 4) (assignIdx + 4) (r - 4).toNat := by
  by_cases hle : 4 ≤ r.toNat
  · rw [toNat_sub_four hle, assigned_step uninit assignIdx hrest hle]
  · have hmod : (r - 4).toNat % 4 = r.toNat % 4 := toNat_sub_four_mod r
    have hne : rest ≠ [] := List.ne_nil_of_length_pos (by omega)
    rw [assigned_all uninit assignIdx (by omega) (by omega),
      assigned_all uninit (assignIdx + 4) (by omega) (by omega), chunks_of_ne_nil hne]

theorem trailing_next {rest : List UInt8} {r : UInt32} (h0 : r.toNat ≠ 0)
    (hrest : 4 < rest.length) :
    trailing rest r.toNat = trailing (rest.drop 4) (r - 4).toNat := by
  have hmod : (r - 4).toNat % 4 = r.toNat % 4 := toNat_sub_four_mod r
  have hsame : (r - 4).toNat % 4 = 0 ∧ (r - 4).toNat < (rest.drop 4).length ↔
      r.toNat % 4 = 0 ∧ r.toNat < rest.length := by
    rw [hmod, List.length_drop]
    apply and_congr_right
    intro h
    rw [toNat_sub_four (by omega)]
    omega
  unfold trailing
  simp only [hsame]

theorem assignRest_eq (uninit : UInt8) (rest : List UInt8) (assignIdx : ℕ) {r : UInt32}
    (hr : r ≠ 0) :
    assignRest uninit rest assignIdx r =
      joined (assigned uninit rest assignIdx r.toNat) ++ trailing rest r.toNat := by
  have hpos : r.toNat ≠ 0 := fun h => hr (UInt32.toNat_inj.mp h)
  induction hm : rest.length using Nat.strong_induction_on generalizing rest assignIdx r with
  | _ m ih =>
    by_cases hrest : rest = []
    · have hnone : trailing [] r.toNat = [] := if_neg fun h => Nat.not_lt_zero _ h.2
      rw [hrest, assignRest_nil, assigned_nil, hnone]
      rfl
    rw [assignRest, if_neg (not_or.mpr ⟨hrest, hr⟩)]
    by_cases h3 : r = 3
    · have hnone : trailing rest r.toNat = [] := if_neg fun h => by simp [h3] at h
      have hthree : r.toNat = 3 := congrArg UInt32.toNat h3
      rw [if_pos h3, hnone, hthree, assigned_three uninit hrest, List.append_nil]
    have h3' : r.toNat ≠ 3 := fun h => h3 (UInt32.toNat_inj.mp h)
    rw [if_neg h3]
    by_cases hlast : rest.length ≤ 4
    · have hnone : trailing rest r.toNat = [] := if_neg (by omega)
      rw [dif_pos hlast, assigned_short uninit assignIdx hpos h3' hlast,
        chunks_short hrest hlast, hnone]
      rfl
    have hmore : 4 < rest.length := by omega
    have hne : rest.drop 4 ≠ [] := by
      rw [Ne, List.drop_eq_nil_iff]
      exact hlast
    rw [dif_neg hlast, assigned_next uninit assignIdx hpos h3' hmore, trailing_next hpos hmore]
    by_cases h4 : r - 4 = 0
    · have hamp : trailing (rest.drop 4) (0 : UInt32).toNat = [.amp] :=
        if_pos ⟨rfl, List.length_pos_iff.mpr hne⟩
      have hnone : assigned uninit (rest.drop 4) (assignIdx + 4) (0 : UInt32).toNat = [] :=
        assigned_zero uninit (rest.drop 4) (assignIdx + 4)
      rw [h4, assignRest_zero, hamp, hnone]
      rfl
    · have h4' : (r - 4).toNat ≠ 0 := fun h => h4 (UInt32.toNat_inj.mp h)
      rw [joined_cons _ (assigned_ne_nil uninit hne (assignIdx + 4) h4'),
        ih _ (by rw [List.length_drop]; omega) _ _ h4 h4' rfl]
      rfl

def assignments (pieces : List Piece) : List Assignment :=
  pieces.filterMap fun
    | .assign a => some a
    | .amp => none

/-- Nothing where a literal is refused. -/
def storedAll (R : Reader) : List Assignment → Option (List UInt8)
  | [] => some []
  | a :: as => (R.stored a.type.width a.literal).bind fun bytes =>
      (storedAll R as).map (bytes ++ ·)

def taken (as : List Assignment) : ℕ :=
  (as.map Assignment.sizeToWrite).sum

/-- From the offset on, each begins where the one before it ends. -/
def Contiguous : ℕ → List Assignment → Prop
  | _, [] => True
  | offset, a :: as => a.assignIdx = offset ∧ Contiguous (offset + a.type.width) as

/-- The assignments keep to the first `lenOfPtr` bytes, and what they store is the string
from its start, as far as it has been taken, with zeros behind it. -/
structure StaysInside (R : Reader) (lenOfPtr : ℕ) (toAssign : List UInt8)
    (as : List Assignment) : Prop where
  within : ∀ a ∈ as, a.assignIdx + a.type.width ≤ lenOfPtr
  contiguous : Contiguous 0 as
  leading : ∃ zeros, storedAll R as =
    some (toAssign.take (taken as) ++ List.replicate zeros 0)

theorem assignments_joined (as : List Assignment) : assignments (joined as) = as := by
  induction as with
  | nil => rfl
  | cons a as ih =>
      cases as with
      | nil => rfl
      | cons b bs =>
          change a :: assignments (joined (b :: bs)) = _
          rw [ih]

theorem assignments_debugAssign (uninit : UInt8) {lenOfPtr : UInt32} (hlen : lenOfPtr ≠ 0)
    (toAssign : StdString) :
    assignments (debugAssign uninit lenOfPtr toAssign) =
      assigned uninit toAssign.bytes 0 lenOfPtr.toNat := by
  have hnone : assignments (trailing toAssign.bytes lenOfPtr.toNat) = [] := by
    unfold trailing
    split <;> rfl
  rw [debugAssign, assignLoop_eq, List.drop_zero, assignRest_eq uninit _ 0 hlen, assignments,
    List.filterMap_append]
  change assignments _ ++ assignments _ = _
  rw [assignments_joined, hnone, List.append_nil]

theorem width_le (type : AssignType) : type.width ≤ 4 := by
  cases type <;> decide

/-! Where the assignments end, and what they store. -/

/-- The bytes that the assignments cover. -/
def extent (as : List Assignment) : ℕ :=
  (as.map fun a => a.type.width).sum

/-- Three characters are stored as an int. -/
def padded (rest : List UInt8) : List UInt8 :=
  if rest.length % 4 = 3 then rest ++ [0] else rest

variable {R : Reader}

theorem extent_append (as bs : List Assignment) : extent (as ++ bs) = extent as + extent bs := by
  rw [extent, List.map_append, List.sum_append]
  rfl

theorem Contiguous.append {offset : ℕ} {as bs : List Assignment} (has : Contiguous offset as)
    (hbs : Contiguous (offset + extent as) bs) : Contiguous offset (as ++ bs) := by
  induction as generalizing offset with
  | nil => exact hbs
  | cons a as ih =>
      refine ⟨has.1, ih has.2 ?_⟩
      rwa [extent, List.map_cons, List.sum_cons, ← Nat.add_assoc] at hbs

theorem Contiguous.within_iff {offset lenOfPtr : ℕ} {as : List Assignment}
    (h : Contiguous offset as) (hoff : offset ≤ lenOfPtr) :
    (∀ a ∈ as, a.assignIdx + a.type.width ≤ lenOfPtr) ↔ offset + extent as ≤ lenOfPtr := by
  induction as generalizing offset with
  | nil => exact iff_of_true (fun a ha => absurd ha List.not_mem_nil) hoff
  | cons a as ih =>
      have hsum : extent (a :: as) = a.type.width + extent as := List.sum_cons
      rw [List.forall_mem_cons, h.1, hsum, ← Nat.add_assoc]
      constructor
      · rintro ⟨ha, has⟩
        exact (ih h.2 ha).mp has
      · intro hle
        have ha : offset + a.type.width ≤ lenOfPtr := (Nat.le_add_right _ _).trans hle
        exact ⟨ha, (ih h.2 ha).mpr hle⟩

theorem storedAll_append (as bs : List Assignment) : storedAll R (as ++ bs) =
    (storedAll R as).bind fun xs => (storedAll R bs).map (xs ++ ·) := by
  induction as with
  | nil => exact (congrFun Option.map_id (storedAll R bs)).symm
  | cons a as ih =>
      rw [List.cons_append, storedAll, storedAll, ih, Option.bind_assoc]
      congr 1
      funext bytes
      rw [Option.bind_map, Option.map_bind]
      congr 1
      funext xs
      rw [Function.comp_apply, Option.map_map]
      simp only [Function.comp_apply, Function.comp_def, List.append_assoc]

theorem length_storedAll {as : List Assignment} {bytes : List UInt8}
    (h : storedAll R as = some bytes) : bytes.length = extent as := by
  induction as generalizing bytes with
  | nil =>
      obtain rfl := Option.some.inj h
      rfl
  | cons a as ih =>
      obtain ⟨xs, hxs, hrest⟩ := Option.bind_eq_some_iff.mp h
      obtain ⟨ys, hys, rfl⟩ := Option.map_eq_some_iff.mp hrest
      rw [List.length_append, Reader.length_stored hxs, ih hys]
      rfl

theorem storedAll_append_iff {as bs : List Assignment} {xs ys : List UInt8}
    (hlen : xs.length = extent as) :
    storedAll R (as ++ bs) = some (xs ++ ys) ↔
      storedAll R as = some xs ∧ storedAll R bs = some ys := by
  rw [storedAll_append]
  constructor
  · intro h
    obtain ⟨xs', hxs, hrest⟩ := Option.bind_eq_some_iff.mp h
    obtain ⟨ys', hys, heq⟩ := Option.map_eq_some_iff.mp hrest
    obtain ⟨rfl, rfl⟩ := List.append_inj heq ((length_storedAll hxs).trans hlen.symm)
    exact ⟨hxs, hys⟩
  · rintro ⟨hxs, hys⟩
    rw [hxs, hys]
    rfl

theorem storedAll_singleton (a : Assignment) :
    storedAll R [a] = R.stored a.type.width a.literal := by
  simp [storedAll]

/-! Four characters at a time. -/

def group (rest : List UInt8) (k : ℕ) : List UInt8 :=
  (rest.drop (4 * k)).take 4

/-- The literals are of four characters, or those that are longer are read as well. -/
def InFours (R : Reader) (rest : List UInt8) : Prop :=
  R.long = true ∨ rest.length % 4 = 0 ∧ 0 ∉ rest

theorem forall_groups (P : List UInt8 → Prop) (rest : List UInt8) :
    (∀ k, P (group rest k)) ↔ P (rest.take 4) ∧ ∀ k, P (group (rest.drop 4) k) := by
  have hnext : ∀ k, group rest (k + 1) = group (rest.drop 4) k := by
    intro k
    rw [group, group, List.drop_drop, Nat.mul_succ, Nat.add_comm]
  constructor
  · intro h
    exact ⟨h 0, fun k => hnext k ▸ h (k + 1)⟩
  · rintro ⟨hfirst, hrest⟩ k
    cases k with
    | zero => exact hfirst
    | succ k => exact (hnext k).symm ▸ hrest k

theorem padded_of_multiple {rest : List UInt8} (h : rest.length % 4 = 0) :
    padded rest = rest := by
  rw [padded, if_neg (by omega)]

theorem length_take_four {rest : List UInt8} (h : 4 ≤ rest.length) : (rest.take 4).length = 4 := by
  rw [List.length_take, Nat.min_eq_left h]

theorem padded_take_four {rest : List UInt8} (h : 4 ≤ rest.length) :
    padded (rest.take 4) = rest.take 4 :=
  padded_of_multiple (by rw [length_take_four h])

theorem chunk_width {rest : List UInt8} (hrest : rest ≠ []) (assignIdx : ℕ) :
    (chunk rest assignIdx).type.width = (padded (rest.take 4)).length := by
  by_cases hlen : 4 ≤ rest.length
  · rw [padded_take_four hlen, length_take_four hlen, chunk, Nat.min_eq_left hlen]
    rfl
  · match rest with
    | [_] => rfl
    | [_, _] => rfl
    | [_, _, _] => rfl
    | _ :: _ :: _ :: _ :: _ => exact absurd (Nat.le_add_left 4 _) hlen

theorem chunk_buffer {rest : List UInt8} (hrest : rest ≠ []) :
    (rest.take 4 ++ List.replicate (4 - rest.length) 0).take (padded (rest.take 4)).length =
      padded (rest.take 4) := by
  by_cases hlen : 4 ≤ rest.length
  · rw [padded_take_four hlen, List.take_left]
  · match rest with
    | [_] => rfl
    | [_, _] => rfl
    | [_, _, _] => rfl
    | _ :: _ :: _ :: _ :: _ => exact absurd (Nat.le_add_left 4 _) hlen

theorem append_padded {xs : List UInt8} (hxs : xs.length % 4 = 0) (ys : List UInt8) :
    xs ++ padded ys = padded (xs ++ ys) := by
  have hmod : (xs ++ ys).length % 4 = ys.length % 4 := by
    rw [List.length_append]
    omega
  unfold padded
  rw [hmod]
  split
  · rw [List.append_assoc]
  · rfl

theorem padded_split (rest : List UInt8) :
    padded rest = padded (rest.take 4) ++ padded (rest.drop 4) := by
  by_cases hlen : 4 ≤ rest.length
  · rw [padded_take_four hlen, append_padded (by rw [length_take_four hlen]), List.take_append_drop]
  · rw [List.drop_of_length_le (by omega), List.take_of_length_le (by omega)]
    exact (List.append_nil _).symm

theorem stored_chunk_iff {rest : List UInt8} (hrest : rest ≠ []) (assignIdx : ℕ) :
    R.stored (chunk rest assignIdx).type.width (chunk rest assignIdx).literal =
        some (padded (rest.take 4)) ↔
      Verbatim (rest.take 4) ∧ (R.long = true ∨ 4 ≤ rest.length ∧ 0 ∉ rest.take 4) := by
  have hpos : 0 < rest.length := List.length_pos_iff.mpr hrest
  have hlen : (rest.take 4 ++ List.replicate (4 - rest.length) (0 : UInt8)).length = 4 := by
    rw [List.length_append, List.length_take, List.length_replicate]
    omega
  have hwidth : (rest.take 4).length ≤ (padded (rest.take 4)).length := by
    unfold padded
    split
    · exact List.length_append.symm ▸ Nat.le_add_right _ _
    · exact Nat.le_refl _
  have hzeros : ∀ c ∈ (rest.take 4 ++ List.replicate (4 - rest.length) 0).drop
      (padded (rest.take 4)).length, c = (0 : UInt8) := by
    rw [List.drop_append, List.drop_of_length_le hwidth, List.nil_append]
    exact fun c hc => List.eq_of_mem_replicate (List.mem_of_mem_drop hc)
  have hcount : (rest.take 4 ++ List.replicate (4 - rest.length) (0 : UInt8)).count 0 = 0 ↔
      4 ≤ rest.length ∧ 0 ∉ rest.take 4 := by
    rw [List.count_append, List.count_replicate_self, Nat.add_eq_zero_iff, List.count_eq_zero,
      Nat.sub_eq_zero_iff_le, and_comm]
  have hle : (padded (rest.take 4)).length ≤ 4 := by
    rw [← chunk_width hrest assignIdx]
    exact width_le _
  have hpos' : 0 < (padded (rest.take 4)).length := by
    rw [List.length_take] at hwidth
    omega
  have hstored := stored_strValue_iff (R := R) hpos' (hle.trans hlen.ge) hzeros
  rw [chunk_buffer hrest, verbatim_append_zeros, hlen] at hstored
  rw [chunk_width hrest, ← hcount]
  refine hstored.trans (and_congr_right fun _ => or_congr_right ?_)
  omega

theorem extent_chunks (rest : List UInt8) (assignIdx : ℕ) :
    extent (chunks rest assignIdx) = (padded rest).length := by
  induction rest, assignIdx using chunks.induct with
  | case1 assignIdx =>
      rw [chunks_nil]
      rfl
  | case2 rest assignIdx hrest ih =>
      rw [chunks_of_ne_nil hrest, padded_split, List.length_append, ← ih,
        ← chunk_width hrest assignIdx]
      rfl

theorem taken_chunks (rest : List UInt8) (assignIdx : ℕ) :
    taken (chunks rest assignIdx) = rest.length := by
  induction rest, assignIdx using chunks.induct with
  | case1 assignIdx =>
      rw [chunks_nil]
      rfl
  | case2 rest assignIdx hrest ih =>
      rw [List.length_drop] at ih
      rw [chunks_of_ne_nil hrest, taken, List.map_cons, List.sum_cons]
      change min 4 rest.length + taken _ = _
      rw [ih]
      omega

theorem stored_chunks_iff (rest : List UInt8) (assignIdx : ℕ) :
    storedAll R (chunks rest assignIdx) = some (padded rest) ↔
      (∀ k, Verbatim (group rest k)) ∧ InFours R rest := by
  induction rest, assignIdx using chunks.induct with
  | case1 assignIdx =>
      rw [chunks_nil]
      refine iff_of_true rfl ⟨fun k => ?_, .inr ⟨rfl, List.not_mem_nil⟩⟩
      rw [group, List.drop_nil, List.take_nil]
      exact verbatim_of_plain (fun c hc => absurd hc List.not_mem_nil) List.not_mem_nil
  | case2 rest assignIdx hrest ih =>
      have hpos : 0 < rest.length := List.length_pos_iff.mpr hrest
      have hfours : (R.long = true ∨ 4 ≤ rest.length ∧ 0 ∉ rest.take 4) ∧ InFours R (rest.drop 4) ↔
          InFours R rest := by
        have hmem : 0 ∉ rest ↔ 0 ∉ rest.take 4 ∧ 0 ∉ rest.drop 4 := by
          rw [← not_or, ← List.mem_append, List.take_append_drop]
        have hmod : 4 ≤ rest.length ∧ (rest.drop 4).length % 4 = 0 ↔ rest.length % 4 = 0 := by
          rw [List.length_drop]
          omega
        unfold InFours
        rw [← or_and_left, and_and_and_comm, hmod, ← hmem]
      rw [chunks_of_ne_nil hrest, ← List.singleton_append, padded_split, storedAll_append_iff,
        storedAll_singleton, stored_chunk_iff hrest, ih, forall_groups Verbatim rest, ← hfours,
        and_and_and_comm]
      · exact (chunk_width hrest assignIdx).symm

theorem contiguous_chunks (rest : List UInt8) (assignIdx : ℕ) :
    Contiguous assignIdx (chunks rest assignIdx) := by
  induction rest, assignIdx using chunks.induct with
  | case1 assignIdx =>
      rw [chunks_nil]
      exact True.intro
  | case2 rest assignIdx hrest ih =>
      rw [chunks_of_ne_nil hrest]
      refine ⟨rfl, ?_⟩
      by_cases hlen : 4 ≤ rest.length
      · rwa [chunk_width hrest, padded_take_four hlen, length_take_four hlen]
      · rw [List.drop_of_length_le (by omega), chunks_nil]
        exact True.intro

/-! The last three bytes. -/

theorem take_two_written {rest : List UInt8} (hrest : 2 ≤ rest.length) (uninit : UInt8) :
    (rest.take 2 ++ [uninit]).take 2 = rest.take 2 := by
  have hlen : 2 ≤ (rest.take 2).length := by
    rw [List.length_take, Nat.min_eq_left hrest]
  rw [List.take_append_of_le_length hlen, List.take_take, Nat.min_self]

theorem chars_escapedNul : R.chars escapedNul = some [0] := by
  have hnone : ∀ c ∈ ([] : List UInt8).head?, ¬ CharLiteral.IsOctal c := by
    rintro c ⟨⟩
  rw [escapedNul]
  exact (Reader.chars_escapedNul hnone).trans (by rw [Reader.chars_nil]; rfl)

theorem stored_escapedNul : R.stored 1 escapedNul = some [0] :=
  Reader.stored_eq_some_iff.mpr
    ⟨_, chars_escapedNul, List.cons_ne_nil _ _, .inr (by decide), rfl⟩

theorem stored_lastThree_iff (uninit : UInt8) {rest : List UInt8} (hrest : 2 ≤ rest.length)
    (assignIdx : ℕ) :
    storedAll R (lastThree uninit rest assignIdx) = some (rest.take 2 ++ [0]) ↔
      Verbatim (rest.take 2) := by
  have hlen : (rest.take 2).length = 2 := by
    rw [List.length_take, Nat.min_eq_left hrest]
  have hcount : (rest.take 2).length + (rest.take 2).count 0 ≤ 4 := by
    have hle : (rest.take 2).count 0 ≤ (rest.take 2).length := List.count_le_length
    omega
  have hnone : ∀ c ∈ (rest.take 2).drop 2, c = 0 := by
    rw [List.drop_of_length_le hlen.le]
    exact fun c hc => absurd hc List.not_mem_nil
  have hstored := stored_strValue_iff (R := R) Nat.two_pos hlen.ge hnone
  rw [List.take_take, Nat.min_self, and_iff_left (.inr hcount)] at hstored
  rw [lastThree, take_two_written hrest, ← List.singleton_append, storedAll_append_iff,
    storedAll_singleton, storedAll_singleton, ← hstored]
  · exact and_iff_left stored_escapedNul
  · exact hlen

/-- The character that is never written may be a quote. -/
theorem lastThree_refused {rest : List UInt8} (hrest : rest.length = 1) (assignIdx : ℕ) :
    storedAll R (lastThree quote rest assignIdx) = none := by
  obtain ⟨c, rfl⟩ := List.length_eq_one_iff.mp hrest
  have hliteral : strValue [c, quote] = quote :: strValue [c] := by
    rw [← List.singleton_append, strValue_append]
    rfl
  have hrefused : R.stored 2 (strValue [c, quote]) = none := by
    rw [hliteral, Reader.stored, Reader.chars_quote]
    rfl
  change (R.stored 2 (strValue [c, quote])).bind _ = none
  rw [hrefused]
  rfl

theorem mem_chunks {rest : List UInt8} {assignIdx : ℕ} {a : Assignment}
    (ha : a ∈ chunks rest assignIdx) :
    ∃ k, 4 * k < rest.length ∧ a = chunk (rest.drop (4 * k)) (assignIdx + 4 * k) := by
  induction rest, assignIdx using chunks.induct with
  | case1 assignIdx =>
      rw [chunks_nil] at ha
      cases ha
  | case2 rest assignIdx hrest ih =>
      rw [chunks_of_ne_nil hrest] at ha
      rcases List.mem_cons.mp ha with rfl | ha
      · exact ⟨0, List.length_pos_iff.mpr hrest, rfl⟩
      · obtain ⟨k, hk, rfl⟩ := ih ha
        rw [List.length_drop] at hk
        refine ⟨k + 1, by omega, ?_⟩
        rw [List.drop_drop, Nat.mul_succ, Nat.add_comm 4, Nat.add_assoc, Nat.add_comm 4]

/-- What is assigned four characters at a time. -/
def byFours (lenOfPtr : ℕ) (toAssign : List UInt8) : List UInt8 :=
  if lenOfPtr % 4 = 0 then toAssign.take lenOfPtr
  else if lenOfPtr % 4 = 3 ∧ lenOfPtr < toAssign.length + 3 then toAssign.take (lenOfPtr - 3)
  else toAssign

/-- The characters that are assigned to the last three bytes. -/
def lastTwo (lenOfPtr : ℕ) (toAssign : List UInt8) : List UInt8 :=
  if lenOfPtr % 4 = 3 ∧ lenOfPtr < toAssign.length + 3 then (toAssign.drop (lenOfPtr - 3)).take 2
  else []

/-- The characters are such that the literals are read as they are written. -/
structure Readable (R : Reader) (lenOfPtr : ℕ) (toAssign : List UInt8) : Prop where
  groups : ∀ k, Verbatim (group (byFours lenOfPtr toAssign) k)
  lastTwo : Verbatim (lastTwo lenOfPtr toAssign)
  fours : InFours R (byFours lenOfPtr toAssign)

/-- The lengths with which the assignments stay inside: a length that leaves one byte or two
over is never used up, and the last two of three bytes take two characters. -/
def Fits (lenOfPtr length : ℕ) : Prop :=
  (lenOfPtr % 4 = 3 → length + 2 ≠ lenOfPtr) ∧
    (lenOfPtr % 4 = 1 ∨ lenOfPtr % 4 = 2 → length ≤ lenOfPtr)

theorem staysInside_iff {lenOfPtr : ℕ} {toAssign : List UInt8} {as : List Assignment}
    (hcont : Contiguous 0 as) : StaysInside R lenOfPtr toAssign as ↔ extent as ≤ lenOfPtr ∧
      ∃ zeros, storedAll R as = some (toAssign.take (taken as) ++ List.replicate zeros 0) := by
  have hwithin := hcont.within_iff (Nat.zero_le lenOfPtr)
  rw [Nat.zero_add] at hwithin
  constructor
  · rintro ⟨within, -, leading⟩
    exact ⟨hwithin.mp within, leading⟩
  · rintro ⟨within, leading⟩
    exact ⟨hwithin.mpr within, hcont, leading⟩

theorem padded_zeros (rest : List UInt8) :
    ∃ zeros, padded rest = rest ++ List.replicate zeros 0 := by
  unfold padded
  split
  · exact ⟨1, rfl⟩
  · exact ⟨0, (List.append_nil _).symm⟩

theorem leading_iff {as : List Assignment} {bytes : List UInt8} {zeros : ℕ}
    (hextent : extent as = bytes.length + zeros) :
    (∃ zeros, storedAll R as = some (bytes ++ List.replicate zeros 0)) ↔
      storedAll R as = some (bytes ++ List.replicate zeros 0) := by
  constructor
  · rintro ⟨zeros', h⟩
    have hlen := length_storedAll h
    rw [hextent, List.length_append, List.length_replicate, Nat.add_left_cancel_iff] at hlen
    rwa [hlen] at h
  · exact fun h => ⟨zeros, h⟩

theorem chunks_stay_iff {lenOfPtr : ℕ} {toAssign rest : List UInt8} (hrest : rest <+: toAssign) :
    StaysInside R lenOfPtr toAssign (chunks rest 0) ↔ (padded rest).length ≤ lenOfPtr ∧
      (∀ k, Verbatim (group rest k)) ∧ InFours R rest := by
  rw [staysInside_iff (contiguous_chunks rest 0), extent_chunks, taken_chunks,
    ← List.prefix_iff_eq_take.mp hrest, ← stored_chunks_iff rest 0]
  obtain ⟨zeros, hzeros⟩ := padded_zeros rest
  have hextent : extent (chunks rest 0) = rest.length + zeros := by
    rw [extent_chunks, hzeros, List.length_append, List.length_replicate]
  rw [leading_iff hextent, hzeros]

theorem whole_stays_iff (uninit : UInt8) {toAssign : List UInt8} {n : ℕ}
    (h3 : ¬ (n % 4 = 3 ∧ n < toAssign.length + 3)) :
    StaysInside R n toAssign (assigned uninit toAssign 0 n) ↔
      Fits n toAssign.length ∧ Readable R n toAssign := by
  have hassigned : assigned uninit toAssign 0 n = chunks (byFours n toAssign) 0 := by
    unfold assigned byFours
    rw [if_neg h3, if_neg h3]
    split <;> rfl
  have hprefix : byFours n toAssign <+: toAssign := by
    unfold byFours
    rw [if_neg h3]
    split
    · exact List.take_prefix n toAssign
    · exact List.prefix_rfl
  have hfits : (padded (byFours n toAssign)).length ≤ n ↔ Fits n toAssign.length := by
    unfold byFours padded Fits
    rw [if_neg h3]
    split
    · split
      · rw [List.length_append, List.length_singleton]
        rw [List.length_take] at *
        omega
      · rw [List.length_take]
        omega
    · split
      · rw [List.length_append, List.length_singleton]
        omega
      · omega
  have hlast : Verbatim (lastTwo n toAssign) := by
    rw [lastTwo, if_neg h3]
    exact verbatim_of_plain (fun c hc => absurd hc List.not_mem_nil) List.not_mem_nil
  rw [hassigned, chunks_stay_iff hprefix, hfits]
  refine and_congr_right fun _ => ⟨?_, ?_⟩
  · rintro ⟨groups, fours⟩
    exact ⟨groups, hlast, fours⟩
  · rintro ⟨groups, -, fours⟩
    exact ⟨groups, fours⟩

section

variable {toAssign : List UInt8} {n : ℕ} (h3 : n % 4 = 3 ∧ n < toAssign.length + 3)

include h3

theorem assigned_last (uninit : UInt8) : assigned uninit toAssign 0 n =
    chunks (toAssign.take (n - 3)) 0 ++ lastThree uninit (toAssign.drop (n - 3)) (n - 3) := by
  rw [assigned, if_neg (by omega), if_pos h3, Nat.zero_add]

theorem length_before_last : (toAssign.take (n - 3)).length = n - 3 := by
  rw [List.length_take]
  omega

theorem padded_before_last : padded (toAssign.take (n - 3)) = toAssign.take (n - 3) := by
  apply padded_of_multiple
  rw [length_before_last h3]
  omega

theorem extent_before_last : extent (chunks (toAssign.take (n - 3)) 0) = n - 3 := by
  rw [extent_chunks, padded_before_last h3, length_before_last h3]

theorem contiguous_last (uninit : UInt8) : Contiguous 0 (assigned uninit toAssign 0 n) := by
  rw [assigned_last h3]
  apply (contiguous_chunks _ 0).append
  rw [extent_before_last h3, Nat.zero_add]
  exact ⟨rfl, rfl, True.intro⟩

theorem extent_last (uninit : UInt8) : extent (assigned uninit toAssign 0 n) = n := by
  rw [assigned_last h3, extent_append, extent_before_last h3]
  change n - 3 + 3 = n
  omega

theorem readable_last_iff : Readable R n toAssign ↔
    ((∀ k, Verbatim (group (toAssign.take (n - 3)) k)) ∧ InFours R (toAssign.take (n - 3))) ∧
      Verbatim ((toAssign.drop (n - 3)).take 2) := by
  have hfours : byFours n toAssign = toAssign.take (n - 3) := by
    rw [byFours, if_neg (by omega), if_pos h3]
  have hlast : lastTwo n toAssign = (toAssign.drop (n - 3)).take 2 := if_pos h3
  rw [← hfours, ← hlast]
  constructor
  · rintro ⟨groups, lastTwo, fours⟩
    exact ⟨⟨groups, fours⟩, lastTwo⟩
  · rintro ⟨⟨groups, fours⟩, lastTwo⟩
    exact ⟨groups, lastTwo, fours⟩

theorem last_stays_iff (uninit : UInt8) (htwo : 2 ≤ (toAssign.drop (n - 3)).length) :
    StaysInside R n toAssign (assigned uninit toAssign 0 n) ↔ Readable R n toAssign := by
  have hlast : ((toAssign.drop (n - 3)).take 2).length = 2 := by
    rw [List.length_take, Nat.min_eq_left htwo]
  have htaken : toAssign.take (taken (assigned uninit toAssign 0 n)) =
      toAssign.take (n - 3) ++ (toAssign.drop (n - 3)).take 2 := by
    rw [assigned_last h3, taken, List.map_append, List.sum_append, ← List.take_add]
    change toAssign.take (taken _ + (min 2 (toAssign.drop (n - 3)).length + 0)) = _
    rw [taken_chunks, length_before_last h3, Nat.min_eq_left htwo]
  have hleading : extent (assigned uninit toAssign 0 n) =
      (toAssign.take (n - 3) ++ (toAssign.drop (n - 3)).take 2).length + 1 := by
    rw [extent_last h3, List.length_append, length_before_last h3, hlast]
    omega
  have hchunks := stored_chunks_iff (R := R) (toAssign.take (n - 3)) 0
  rw [padded_before_last h3] at hchunks
  rw [staysInside_iff (contiguous_last h3 uninit), htaken, leading_iff hleading,
    and_iff_right (extent_last h3 uninit).le, assigned_last h3, List.append_assoc,
    storedAll_append_iff ((length_before_last h3).trans (extent_before_last h3).symm),
    readable_last_iff h3]
  exact and_congr hchunks (stored_lastThree_iff uninit htwo (n - 3))

theorem three_stay_iff : (∀ uninit, StaysInside R n toAssign (assigned uninit toAssign 0 n)) ↔
    Fits n toAssign.length ∧ Readable R n toAssign := by
  by_cases htwo : 2 ≤ (toAssign.drop (n - 3)).length
  · have hfits : Fits n toAssign.length := by
      rw [List.length_drop] at htwo
      unfold Fits
      omega
    rw [and_iff_right hfits]
    simp only [last_stays_iff h3 _ htwo]
    exact forall_const UInt8
  · have hone : (toAssign.drop (n - 3)).length = 1 := by
      rw [List.length_drop] at htwo ⊢
      omega
    refine iff_of_false (fun h => ?_) fun h => ?_
    · obtain ⟨-, zeros, hstored⟩ := (staysInside_iff (contiguous_last h3 quote)).mp (h quote)
      rw [assigned_last h3, storedAll_append, lastThree_refused hone] at hstored
      obtain ⟨xs, -, hnone⟩ := Option.bind_eq_some_iff.mp hstored
      cases hnone
    · rw [List.length_drop] at hone
      exact h.1.1 h3.1 (by omega)

end

theorem stays_inside_iff (R : Reader) {lenOfPtr : UInt32} (hlen : lenOfPtr ≠ 0)
    (toAssign : StdString) :
    (∀ uninit, StaysInside R lenOfPtr.toNat toAssign.bytes
      (assignments (debugAssign uninit lenOfPtr toAssign))) ↔
        Fits lenOfPtr.toNat toAssign.bytes.length ∧
          Readable R lenOfPtr.toNat toAssign.bytes := by
  simp only [assignments_debugAssign _ hlen]
  by_cases h3 : lenOfPtr.toNat % 4 = 3 ∧ lenOfPtr.toNat < toAssign.bytes.length + 3
  · exact three_stay_iff h3
  · simp only [whole_stays_iff _ h3]
    exact forall_const UInt8

/-- Neither a null nor a character that means something else in a literal. -/
theorem readable_of_plain {lenOfPtr : ℕ} {toAssign : List UInt8} (hplain : ∀ c ∈ toAssign, Plain c)
    (hnul : 0 ∉ toAssign) (hfours : (byFours lenOfPtr toAssign).length % 4 = 0) :
    Readable R lenOfPtr toAssign := by
  have hsub : ∀ c ∈ byFours lenOfPtr toAssign, c ∈ toAssign := by
    intro c hc
    unfold byFours at hc
    split at hc
    · exact List.mem_of_mem_take hc
    split at hc
    · exact List.mem_of_mem_take hc
    · exact hc
  have hlast : ∀ c ∈ lastTwo lenOfPtr toAssign, c ∈ toAssign := by
    intro c hc
    unfold lastTwo at hc
    split at hc
    · exact List.mem_of_mem_drop (List.mem_of_mem_take hc)
    · cases hc
  refine ⟨fun k => ?_, ?_, .inr ⟨hfours, fun h => hnul (hsub 0 h)⟩⟩
  · have hgroup : ∀ c ∈ group (byFours lenOfPtr toAssign) k, c ∈ toAssign :=
      fun c hc => hsub c (List.mem_of_mem_drop (List.mem_of_mem_take hc))
    exact verbatim_of_plain (fun c hc => hplain c (hgroup c hc)) fun h => hnul (hgroup 0 h)
  · exact verbatim_of_plain (fun c hc => hplain c (hlast c hc)) fun h => hnul (hlast 0 h)

theorem stays_inside_myNameIsDennies : (16 : UInt32) ≠ 0 ∧
    ∀ uninit, StaysInside msvc (16 : UInt32).toNat myNameIsDennies.bytes
      (assignments (debugAssign uninit 16 myNameIsDennies)) := by
  refine ⟨by decide, (stays_inside_iff msvc (by decide) myNameIsDennies).mpr ⟨?_, ?_⟩⟩
  · unfold Fits
    decide
  · exact readable_of_plain (plain_of_all (by decide)) (by decide) (by decide)

/-- A whole int is assigned to the last two bytes. -/
theorem two_bytes_overrun : ¬ StaysInside msvc (2 : UInt32).toNat myNameIsDennies.bytes
    (assignments (debugAssign 0 2 myNameIsDennies)) := by
  rw [assignments_debugAssign 0 (by decide), whole_stays_iff 0 (by decide)]
  rintro ⟨hfits, -⟩
  exact absurd (hfits.2 (.inr rfl)) (by decide)

end TestCodes.TestUnitsNew
