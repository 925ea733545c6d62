import Lox.Scope.Analysis

/-! The table of scope depths, by node.

An occurrence without an entry is a global. Entries are only overwritten, never removed, because a
function keeps the nodes of its body for as long as it lives. -/

namespace Lox

structure Depths where
  slots : Array (Option Nat)
  deriving DecidableEq, Repr

namespace Depths

def empty : Depths := ⟨#[]⟩

def get? (d : Depths) (node : NodeId) : Option Nat := d.slots[node.index]?.join

/-- Adds empty slots up to the given size. -/
def extend (slots : Array (Option Nat)) (size : Nat) : Array (Option Nat) :=
  slots ++ Array.replicate (size - slots.size) none

def record (d : Depths) (node : NodeId) (depth : Nat) : Depths :=
  ⟨(extend d.slots (node.index + 1)).setIfInBounds node.index (some depth)⟩

def recordNote (d : Depths) : ScopeNote → Depths
  | .bound target (some depth) => d.record target.node depth
  | _ => d

def recordAll (d : Depths) (notes : List ScopeNote) : Depths := notes.foldl recordNote d

@[simp] theorem get?_record (d : Depths) (node other : NodeId) (depth : Nat) :
    (d.record node depth).get? other = if node = other then some depth else d.get? other := by
  rcases node with ⟨i⟩
  rcases other with ⟨j⟩
  simp only [get?, record, extend, NodeId.mk.injEq, Array.getElem?_setIfInBounds,
    Array.getElem?_append, Array.getElem?_replicate, Array.size_append, Array.size_replicate]
  grind

end Depths

end Lox
