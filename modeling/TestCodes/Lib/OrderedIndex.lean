import Mathlib.Data.List.Sort
import Mathlib.Order.Lattice

/-! A non-unique ordered index, as in `boost::multi_index`: entries stand in the
order of their keys, an entry that comes in stands behind those of the same key, and
a replaced entry keeps its place as long as the order allows. -/
namespace TestCodes

structure OrderedIndex {E K : Type*} [LE K] (key : E → K) where
  entries : List E
  sorted : entries.Pairwise fun a b => key a ≤ key b

namespace OrderedIndex
variable {E K : Type*} [LinearOrder K] {key : E → K}

theorem sorted_orderedInsert {l : List E} (h : l.Pairwise fun a b => key a ≤ key b) (e : E) :
    (l.orderedInsert (fun a b => key a < key b) e).Pairwise fun a b => key a ≤ key b := by
  induction l with
  | nil => exact List.pairwise_singleton _ e
  | cons b l ih =>
      obtain ⟨hb, hl⟩ := List.pairwise_cons.mp h
      rw [List.orderedInsert_cons]
      split
      · rename_i hlt
        refine List.pairwise_cons.mpr ⟨?_, h⟩
        exact List.forall_mem_cons.mpr ⟨hlt.le, fun a ha => hlt.le.trans (hb a ha)⟩
      · rename_i hge
        refine List.pairwise_cons.mpr ⟨fun a ha => ?_, ih hl⟩
        rcases (List.mem_orderedInsert _).mp ha with rfl | ha
        · exact not_lt.mp hge
        · exact hb a ha

def empty (key : E → K) : OrderedIndex key := ⟨[], .nil⟩

/-- The first entry under the key. -/
def find (i : OrderedIndex key) (k : K) : Option E := i.entries.find? fun e => key e = k

def insert (i : OrderedIndex key) (e : E) : OrderedIndex key :=
  ⟨i.entries.orderedInsert (fun a b => key a < key b) e, sorted_orderedInsert i.sorted e⟩

theorem insert_perm (i : OrderedIndex key) (e : E) : (i.insert e).entries.Perm (e :: i.entries) :=
  List.perm_orderedInsert _ e i.entries

variable [DecidableEq E]

def erase (i : OrderedIndex key) (e : E) : OrderedIndex key :=
  ⟨i.entries.erase e, i.sorted.sublist List.erase_sublist⟩

/-- The entries before and behind one of them. -/
def before (l : List E) (e : E) : List E := l.takeWhile (· ≠ e)

def behind (l : List E) (e : E) : List E := (l.dropWhile (· ≠ e)).tail

theorem before_behind (l : List E) (e : E) : before l e ++ behind l e = l.erase e := by
  induction l with
  | nil => rfl
  | cons a l ih =>
      by_cases h : a = e
      · simp [before, behind, h]
      · simpa [before, behind, h, List.erase_cons_tail] using ih

/-- The neighbours of `e` allow `value` in its place. -/
def InPlace (key : E → K) (l : List E) (e value : E) : Prop :=
  (∀ a ∈ (before l e).getLast?, key a ≤ key value) ∧ ∀ a ∈ (behind l e).head?, key value ≤ key a

instance (key : E → K) (l : List E) (e value : E) : Decidable (InPlace key l e value) :=
  inferInstanceAs (Decidable ((∀ a ∈ (before l e).getLast?, key a ≤ key value) ∧
    ∀ a ∈ (behind l e).head?, key value ≤ key a))

theorem sorted_inPlace {l : List E} (h : l.Pairwise fun a b => key a ≤ key b) {e value : E}
    (hplace : InPlace key l e value) :
    (before l e ++ value :: behind l e).Pairwise fun a b => key a ≤ key b := by
  have hrest : (before l e ++ behind l e).Pairwise fun a b => key a ≤ key b := by
    rw [before_behind]
    exact h.sublist List.erase_sublist
  obtain ⟨hbefore, hbehind, hacross⟩ := List.pairwise_append.mp hrest
  have hup : ∀ a ∈ before l e, key a ≤ key value := by
    intro a ha
    rcases List.eq_nil_or_concat (before l e) with hnil | ⟨init, last, hinit⟩
    · rw [hnil] at ha
      cases ha
    · have hle := hplace.1 last (by rw [hinit, List.concat_eq_append, List.getLast?_concat]; rfl)
      rw [hinit, List.concat_eq_append] at ha hbefore
      rcases List.mem_append.mp ha with ha | ha
      · have hlast := (List.pairwise_append.mp hbefore).2.2 a ha last (List.mem_singleton_self _)
        exact hlast.trans hle
      · rwa [List.mem_singleton.mp ha]
  have hdown : ∀ a ∈ behind l e, key value ≤ key a := by
    intro a ha
    cases hb : behind l e with
    | nil =>
        rw [hb] at ha
        cases ha
    | cons b rest =>
        have hle := hplace.2 b (by rw [hb]; rfl)
        rw [hb] at ha hbehind
        rcases List.mem_cons.mp ha with rfl | ha
        · exact hle
        · exact hle.trans (List.rel_of_pairwise_cons hbehind ha)
  refine List.pairwise_append.mpr ⟨hbefore, List.pairwise_cons.mpr ⟨hdown, hbehind⟩, ?_⟩
  intro a ha b hb
  rcases List.mem_cons.mp hb with rfl | hb
  · exact hup a ha
  · exact hacross a ha b hb

def replace (i : OrderedIndex key) (e value : E) : OrderedIndex key :=
  if h : InPlace key i.entries e value then
    ⟨before i.entries e ++ value :: behind i.entries e, sorted_inPlace i.sorted h⟩
  else (i.erase e).insert value

theorem replace_perm (i : OrderedIndex key) (e value : E) :
    (i.replace e value).entries.Perm (value :: i.entries.erase e) := by
  unfold replace
  split
  · rw [← before_behind]
    exact List.perm_middle
  · exact insert_perm _ _

end OrderedIndex
end TestCodes
