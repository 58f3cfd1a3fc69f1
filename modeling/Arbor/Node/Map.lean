/-
  Maps and sets of nodes.

  A `NodeMap α` is a finite map from node ids, kept as one slot per id up to the
  greatest id that was stored; a `NodeSet` is a map without information.

  Main statement: `get?_insert`, the law of insertion.
-/
import Arbor.Node.Id

namespace Arbor

/-- A finite map from node ids. -/
structure NodeMap (α : Type) where
  /-- One slot per id. -/
  slots : Array (Option α)

namespace NodeMap

variable {α : Type}

/-- The map without nodes. -/
def empty : NodeMap α := ⟨#[]⟩

instance : Inhabited (NodeMap α) := ⟨empty⟩

/-- The value stored for a node. -/
def get? (m : NodeMap α) (id : NodeId) : Option α := (m.slots[id.raw]?).join

/-- Adds slots without value until there are at least `n`. -/
def padded (slots : Array (Option α)) (n : Nat) : Array (Option α) :=
  if slots.size < n then slots ++ Array.replicate (n - slots.size) none else slots

/-- Stores a value for a node, in place of what was there. -/
def insert (m : NodeMap α) (id : NodeId) (a : α) : NodeMap α :=
  ⟨(padded m.slots (id.raw + 1)).set! id.raw (some a)⟩

/-- Whether a value is stored for a node. -/
def contains (m : NodeMap α) (id : NodeId) : Bool := (m.get? id).isSome

/-! ## Laws -/

theorem size_padded (slots : Array (Option α)) (n : Nat) :
    n ≤ (padded slots n).size := by
  unfold padded
  split
  · simp only [Array.size_append, Array.size_replicate]; omega
  · omega

theorem getElem?_padded (slots : Array (Option α)) (n k : Nat) :
    ((padded slots n)[k]?).join = (slots[k]?).join := by
  unfold padded
  split
  · next h =>
    rw [Array.getElem?_append]
    split
    · rfl
    · next hk =>
      rw [Array.getElem?_eq_none (Nat.le_of_not_lt hk), Array.getElem?_replicate]
      split <;> rfl
  · rfl

@[simp] theorem get?_empty (id : NodeId) : (empty : NodeMap α).get? id = none := rfl

/-- A stored value is read back for its node, and no other node is touched. -/
@[simp] theorem get?_insert (m : NodeMap α) (id : NodeId) (a : α) (id' : NodeId) :
    (m.insert id a).get? id' = if id = id' then some a else m.get? id' := by
  have hlt : id.raw < (padded m.slots (id.raw + 1)).size := size_padded m.slots (id.raw + 1)
  by_cases h : id = id'
  · subst h
    simp [get?, insert, Array.set!_eq_setIfInBounds, Array.getElem?_setIfInBounds_self_of_lt hlt]
  · have h' : id.raw ≠ id'.raw := fun e => h (by cases id; cases id'; simp_all)
    simp only [h, if_false, get?, insert, Array.set!_eq_setIfInBounds,
      Array.getElem?_setIfInBounds_ne h', getElem?_padded]

end NodeMap

/-- A finite set of nodes. -/
abbrev NodeSet := NodeMap Unit

end Arbor
