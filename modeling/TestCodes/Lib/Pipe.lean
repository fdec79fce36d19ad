import Mathlib.Data.List.Basic

/-! A byte pipe from a sender to a sink that takes what it likes: the abstract
purpose of a buffered sender. The law that nothing is lost, repeated, reordered
or invented is carried by the value itself. -/
namespace TestCodes

structure Pipe (α : Type*) where
  promised : List α
  taken : List α
  pending : List α
  conserved : taken ++ pending = promised

namespace Pipe
variable {α : Type*}

def empty : Pipe α := ⟨[], [], [], rfl⟩

/-- The sender takes responsibility for `msg`. -/
def offer (p : Pipe α) (msg : List α) : Pipe α where
  promised := p.promised ++ msg
  taken := p.taken
  pending := p.pending ++ msg
  conserved := by rw [← List.append_assoc, p.conserved]

/-- The sink takes the next `k` pending elements. -/
def deliver (p : Pipe α) (k : ℕ) : Pipe α where
  promised := p.promised
  taken := p.taken ++ p.pending.take k
  pending := p.pending.drop k
  conserved := by rw [List.append_assoc, List.take_append_drop, p.conserved]

theorem taken_prefix (p : Pipe α) : p.taken <+: p.promised := ⟨p.pending, p.conserved⟩

theorem taken_all (p : Pipe α) (h : p.pending = []) : p.taken = p.promised := by
  rw [← p.conserved, h, List.append_nil]

end Pipe
end TestCodes
