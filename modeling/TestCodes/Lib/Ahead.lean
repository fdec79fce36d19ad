import Mathlib.Data.List.Nodup
import Mathlib.Data.List.Perm.Basic

/-! What stands before a key in a line that grows at its end, and from which anybody can leave. -/
namespace TestCodes

variable {α κ : Type*}

def ahead [DecidableEq κ] (key : α → κ) (line : List α) (k : κ) : List α :=
  line.takeWhile fun a => key a ≠ k

namespace Ahead
variable {key : α → κ} {line : List α} {a b : α} {k : κ}

theorem nodup_append (hline : (line.map key).Nodup) (hb : key b ∉ line.map key) :
    ((line ++ [b]).map key).Nodup := by
  rw [List.map_append, List.nodup_append]
  refine ⟨hline, List.nodup_singleton _, ?_⟩
  rintro k hk l hl rfl
  exact hb (List.mem_singleton.mp hl ▸ hk)

theorem nodup_erase [BEq α] (hline : (line.map key).Nodup) :
    ((line.erase b).map key).Nodup :=
  hline.sublist (List.erase_sublist.map key)

theorem not_mem_erase [BEq α] [LawfulBEq α] (hline : (line.map key).Nodup) (hb : b ∈ line) :
    key b ∉ (line.erase b).map key := by
  have hperm := (List.perm_cons_erase hb).map key
  rw [List.map_cons] at hperm
  exact (List.nodup_cons.mp (hperm.nodup_iff.mp hline)).1

variable [DecidableEq κ]

theorem cons_of_ne (h : key a ≠ k) : ahead key (a :: line) k = a :: ahead key line k := by
  rw [ahead, List.takeWhile_cons_of_pos (by simpa using h)]
  rfl

theorem cons_self (h : key a = k) : ahead key (a :: line) k = [] := by
  rw [ahead, List.takeWhile_cons_of_neg (by simpa using h)]

theorem append_of_mem (ha : a ∈ line) (more : List α) :
    ahead key (line ++ more) (key a) = ahead key line (key a) := by
  induction line with
  | nil => cases ha
  | cons c line ih =>
      rw [List.cons_append]
      by_cases hc : key c = key a
      · rw [cons_self hc, cons_self hc]
      · have hne : a ≠ c := fun h => hc (congrArg key h).symm
        rw [cons_of_ne hc, cons_of_ne hc, ih ((List.mem_cons.mp ha).resolve_left hne)]

theorem append_self (hk : k ∉ line.map key) (hb : key b = k) :
    ahead key (line ++ [b]) k = line := by
  induction line with
  | nil => exact cons_self hb
  | cons c line ih =>
      rw [List.map_cons, List.mem_cons, not_or] at hk
      rw [List.cons_append, cons_of_ne (Ne.symm hk.1), ih hk.2]

theorem erase [BEq α] [LawfulBEq α] (hne : key b ≠ k) :
    ahead key (line.erase b) k = (ahead key line k).erase b := by
  induction line with
  | nil => rfl
  | cons c line ih =>
      by_cases hcb : c = b
      · subst hcb
        rw [List.erase_cons_head, cons_of_ne hne, List.erase_cons_head]
      · rw [List.erase_cons_tail (by simpa using hcb)]
        by_cases hck : key c = k
        · rw [cons_self hck, cons_self hck]
          rfl
        · rw [cons_of_ne hck, cons_of_ne hck, List.erase_cons_tail (by simpa using hcb), ih]

theorem total (hline : (line.map key).Nodup) (ha : a ∈ line) (hb : b ∈ line)
    (hne : key a ≠ key b) : a ∈ ahead key line (key b) ∨ b ∈ ahead key line (key a) := by
  induction line with
  | nil => cases ha
  | cons c line ih =>
      rw [List.map_cons, List.nodup_cons] at hline
      rcases List.mem_cons.mp ha with rfl | ha'
      · left
        rw [cons_of_ne hne]
        exact List.mem_cons_self
      · rcases List.mem_cons.mp hb with rfl | hb'
        · right
          rw [cons_of_ne hne.symm]
          exact List.mem_cons_self
        · have hc : ∀ d ∈ line, key c ≠ key d := fun d hd h =>
            hline.1 (List.mem_map.mpr ⟨d, hd, h.symm⟩)
          rw [cons_of_ne (hc b hb'), cons_of_ne (hc a ha')]
          exact (ih hline.2 ha' hb').imp (List.mem_cons_of_mem c) (List.mem_cons_of_mem c)

theorem length_lt (ha : a ∈ line) : (ahead key line (key a)).length < line.length := by
  induction line with
  | nil => cases ha
  | cons c line ih =>
      by_cases hc : key c = key a
      · rw [cons_self hc]
        exact Nat.succ_pos _
      · have hne : a ≠ c := fun h => hc (congrArg key h).symm
        rw [cons_of_ne hc, List.length_cons, List.length_cons]
        exact Nat.succ_lt_succ (ih ((List.mem_cons.mp ha).resolve_left hne))

end Ahead
end TestCodes
