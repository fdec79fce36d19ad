import Mathlib.Data.Finset.Card
import Mathlib.Data.List.AList

/-! `std::map` on Mathlib's association lists: `insert` keeps the entry that is
already there. -/
namespace TestCodes

abbrev StdMap (K V : Type*) := AList fun _ : K => V

namespace StdMap
variable {K V : Type*}

def size (m : StdMap K V) : ℕ := m.entries.length

theorem size_eq_keys (m : StdMap K V) : m.size = m.keys.length := by
  rw [size, AList.keys, List.keys, List.length_map]

variable [DecidableEq K]

def find (m : StdMap K V) (k : K) : Option V := m.lookup k

/-- `m[k] = v` -/
def set (m : StdMap K V) (k : K) (v : V) : StdMap K V := AList.insert k v m

def insertNew (m : StdMap K V) (k : K) (v : V) : StdMap K V :=
  if (m.find k).isSome then m else m.set k v

def eraseKey (m : StdMap K V) (k : K) : StdMap K V := AList.erase k m

@[simp] theorem find_empty (k : K) : (∅ : StdMap K V).find k = none := rfl

theorem find_set (m : StdMap K V) (k : K) (v : V) (j : K) :
    (m.set k v).find j = if j = k then some v else m.find j := by
  by_cases h : j = k
  · subst h
    rw [if_pos rfl]
    exact AList.lookup_insert m
  · rw [if_neg h]
    exact AList.lookup_insert_ne h

theorem find_eraseKey (m : StdMap K V) (k j : K) :
    (m.eraseKey k).find j = if j = k then none else m.find j := by
  by_cases h : j = k
  · subst h
    rw [if_pos rfl]
    exact AList.lookup_erase j m
  · rw [if_neg h]
    exact AList.lookup_erase_ne h

theorem insertNew_of_none {m : StdMap K V} {k : K} (h : m.find k = none) (v : V) :
    m.insertNew k v = m.set k v := by
  rw [insertNew, h]
  rfl

theorem find_insertNew_self {m : StdMap K V} {k : K} (h : m.find k = none) (v : V) :
    (m.insertNew k v).find k = some v := by
  rw [insertNew_of_none h, find_set, if_pos rfl]

theorem find_insertNew_ne (m : StdMap K V) {k j : K} (h : j ≠ k) (v : V) :
    (m.insertNew k v).find j = m.find j := by
  unfold insertNew
  split
  · rfl
  · rw [find_set, if_neg h]

/-- An entry that is there survives an `insert`, also one under its own key. -/
theorem find_insertNew_of_some {m : StdMap K V} {j : K} {w : V} (h : m.find j = some w) (k : K)
    (v : V) : (m.insertNew k v).find j = some w := by
  by_cases hj : j = k
  · rw [insertNew, ← hj, h]
    exact h
  · rw [find_insertNew_ne m hj, h]

theorem find_insertNew_some {m : StdMap K V} {k j : K} {v w : V}
    (h : (m.insertNew k v).find j = some w) : m.find j = some w ∨ j = k ∧ w = v := by
  unfold insertNew at h
  split at h
  · exact .inl h
  · rw [find_set] at h
    split at h
    · rename_i hj
      exact .inr ⟨hj, (Option.some.inj h).symm⟩
    · exact .inl h

theorem find_eraseKey_some {m : StdMap K V} {k j : K} {w : V}
    (h : (m.eraseKey k).find j = some w) : j ≠ k ∧ m.find j = some w := by
  rw [find_eraseKey] at h
  split at h
  · cases h
  · rename_i hj
    exact ⟨hj, h⟩

theorem mem_entries {m : StdMap K V} {k : K} {v : V} (h : m.find k = some v) :
    ⟨k, v⟩ ∈ m.entries :=
  AList.mem_lookup_iff.mp h

theorem ne_of_find {m : StdMap K V} {j k : K} {v : V} (hj : m.find j = some v)
    (hk : m.find k = none) : j ≠ k := by
  rintro rfl
  rw [hj] at hk
  cases hk

theorem size_set_of_none {m : StdMap K V} {k : K} (h : m.find k = none) (v : V) :
    (m.set k v).size = m.size + 1 := by
  rw [size, set, AList.entries_insert_of_notMem (AList.lookup_eq_none.mp h), List.length_cons, size]

theorem size_eraseKey {m : StdMap K V} {k : K} {v : V} (h : m.find k = some v) :
    (m.eraseKey k).size + 1 = m.size := by
  have hmem : k ∈ m.keys := AList.mem_keys.mp (AList.lookup_isSome.mp (Option.isSome_of_eq_some h))
  have hpos := List.length_pos_of_mem hmem
  rw [size_eq_keys, size_eq_keys, eraseKey, AList.keys_erase, List.length_erase_of_mem hmem]
  omega

theorem size_set_of_some {m : StdMap K V} {k : K} {w : V} (h : m.find k = some w) (v : V) :
    (m.set k v).size = m.size := by
  have hmem : k ∈ m.keys := AList.mem_keys.mp (AList.lookup_isSome.mp (Option.isSome_of_eq_some h))
  have hpos := List.length_pos_of_mem hmem
  rw [size_eq_keys, size_eq_keys, set, AList.keys_insert, List.length_cons,
    List.length_erase_of_mem hmem]
  omega

/-! An index of a heap: the objects that are there, each once, by its own name. -/

variable {P : Type*} [DecidableEq P]

def Indexes (name : V → K) (index : StdMap K P) (heap : StdMap P V) : Prop :=
  ∀ k p, index.find k = some p ↔ ∃ x, heap.find p = some x ∧ name x = k

variable {name : V → K} {index : StdMap K P} {heap : StdMap P V}

theorem Indexes.distinct (h : Indexes name index heap) {p q : P} {x y : V}
    (hp : heap.find p = some x) (hq : heap.find q = some y)
    (hn : name x = name y) : p = q := by
  have hfp := (h _ p).mpr ⟨x, hp, rfl⟩
  have hfq := (h _ q).mpr ⟨y, hq, rfl⟩
  rw [hn, hfq] at hfp
  exact (Option.some.inj hfp).symm

theorem Indexes.insert (h : Indexes name index heap) {p : P} (x : V)
    (hp : heap.find p = none) (hk : index.find (name x) = none) :
    Indexes name (index.insertNew (name x) p) (heap.set p x) := by
  intro k q
  rw [StdMap.insertNew_of_none hk, StdMap.find_set, StdMap.find_set]
  by_cases hq : q = p
  · subst hq
    by_cases hkn : k = name x
    · simp [hkn]
    · simp only [hkn, ↓reduceIte, Option.some.injEq, exists_eq_left']
      refine ⟨fun hf => ?_, fun he => absurd he.symm hkn⟩
      obtain ⟨y, ho, -⟩ := (h k q).mp hf
      rw [hp] at ho
      cases ho
  · by_cases hkn : k = name x
    · have hpq : ¬ p = q := fun he => hq he.symm
      simp only [hkn, ↓reduceIte, hq, Option.some.injEq, hpq, false_iff]
      rintro ⟨y, ho, hn⟩
      have hf := (h _ q).mpr ⟨y, ho, hn⟩
      rw [hk] at hf
      cases hf
    · simp only [hkn, hq, ↓reduceIte]
      exact h k q

theorem Indexes.erase (h : Indexes name index heap) {p : P} {x : V}
    (hp : heap.find p = some x) :
    Indexes name (index.eraseKey (name x)) (heap.eraseKey p) := by
  intro k q
  rw [StdMap.find_eraseKey, StdMap.find_eraseKey]
  have hfp := (h _ p).mpr ⟨x, hp, rfl⟩
  by_cases hq : q = p
  · subst hq
    by_cases hkn : k = name x
    · simp [hkn]
    · simp only [hkn, ↓reduceIte, reduceCtorEq, false_and, exists_false, iff_false]
      intro hf
      obtain ⟨y, ho, hn⟩ := (h k q).mp hf
      rw [hp] at ho
      exact hkn (Option.some.inj ho ▸ hn.symm)
  · by_cases hkn : k = name x
    · simp only [hkn, hq, ↓reduceIte, reduceCtorEq, false_iff]
      rintro ⟨y, ho, hn⟩
      exact hq (h.distinct ho hp hn)
    · simp only [hkn, hq, ↓reduceIte]
      exact h k q

theorem Indexes.change (h : Indexes name index heap) {p : P} {x x' : V}
    (hp : heap.find p = some x) (hn : name x' = name x) :
    Indexes name index (heap.set p x') := by
  intro k q
  rw [h k q, StdMap.find_set]
  by_cases hq : q = p
  · subst hq
    simp [hp, hn]
  · simp [hq]

/-! A set of keys beside a map: those of the values of one kind. -/

def KeySet (m : StdMap K V) (kind : V → Bool) (index : Finset K) : Prop :=
  ∀ k, k ∈ index ↔ ∃ v, m.find k = some v ∧ kind v = true

variable {m : StdMap K V} {kind : V → Bool} {keys : Finset K} {k : K} {v : V}

theorem KeySet.empty (kind : V → Bool) : KeySet (∅ : StdMap K V) kind ∅ := by
  intro k
  simp

theorem KeySet.insert (h : KeySet m kind keys) (hv : kind v = true) :
    KeySet (m.set k v) kind (insert k keys) := by
  intro j
  rw [Finset.mem_insert, find_set]
  by_cases hj : j = k
  · simp [hj, hv]
  · simp only [hj, false_or, ↓reduceIte]
    exact h j

theorem KeySet.insert_other (h : KeySet m kind keys) (hk : m.find k = none)
    (hv : kind v = false) : KeySet (m.set k v) kind keys := by
  intro j
  rw [find_set, h j]
  by_cases hj : j = k
  · simp [hj, hk, hv]
  · simp only [hj, ↓reduceIte]

theorem KeySet.erase (h : KeySet m kind keys) (k : K) :
    KeySet (m.eraseKey k) kind (keys.erase k) := by
  intro j
  rw [Finset.mem_erase, find_eraseKey]
  by_cases hj : j = k
  · simp [hj]
  · simp only [hj, ne_eq, not_false_eq_true, true_and, ↓reduceIte]
    exact h j

theorem KeySet.erase_other (h : KeySet m kind keys) (hk : m.find k = some v)
    (hv : kind v = false) : KeySet (m.eraseKey k) kind keys := by
  have hnot : k ∉ keys := by
    intro hmem
    obtain ⟨w, hw, hkind⟩ := (h k).mp hmem
    rw [Option.some.inj (hk.symm.trans hw), hkind] at hv
    cases hv
  rw [← Finset.erase_eq_of_notMem hnot]
  exact h.erase k

theorem KeySet.card (h : KeySet m kind keys) :
    keys.card = m.entries.countP fun e => kind e.2 := by
  have hkeys : keys = ((m.entries.filter fun e => kind e.2).map Sigma.fst).toFinset := by
    ext j
    rw [h j, List.mem_toFinset, List.mem_map]
    constructor
    · rintro ⟨w, hw, hkind⟩
      exact ⟨⟨j, w⟩, List.mem_filter.mpr ⟨mem_entries hw, hkind⟩, rfl⟩
    · rintro ⟨⟨i, w⟩, hmem, rfl⟩
      obtain ⟨hmem, hkind⟩ := List.mem_filter.mp hmem
      exact ⟨w, AList.mem_lookup_iff.mpr hmem, hkind⟩
  have hnodup : ((m.entries.filter fun e => kind e.2).map Sigma.fst).Nodup :=
    m.nodupKeys.sublist List.filter_sublist
  rw [hkeys, List.toFinset_card_of_nodup hnodup, List.length_map, List.countP_eq_length_filter]

end StdMap
end TestCodes
