/-
  Node ids and child lists.

  A node is known by its id, the number of nodes allocated before it; the
  greatest 32-bit number stands for no node.  A child list is known by the part
  of the arena's list storage that holds it.
-/

namespace Arbor

/-- A node, by the number of nodes allocated before it. -/
structure NodeId where
  /-- The number itself. -/
  raw : Nat
deriving DecidableEq, Repr

namespace NodeId

/-- The id that stands for no node. -/
def invalid : NodeId := ⟨4294967295⟩

instance : Inhabited NodeId := ⟨invalid⟩

/-- Whether the id can stand for a node. -/
def isValid (id : NodeId) : Bool := id != invalid

/-- An id as people read it. -/
def display (id : NodeId) : String := s!"#{id.raw}"

/-- The technical form of an id. -/
def debug (id : NodeId) : String :=
  if id.isValid then s!"NodeId({id.raw})" else "NodeId::INVALID"

end NodeId

/-- A child list: `len` ids from place `start` of the list storage. -/
structure NodeRange where
  /-- The place of the first id. -/
  start : Nat
  /-- The number of ids. -/
  len : Nat
deriving DecidableEq, Repr

namespace NodeRange

/-- The child list without ids. -/
def empty : NodeRange := ⟨0, 0⟩

instance : Inhabited NodeRange := ⟨empty⟩

/-- Whether the list has no ids. -/
def isEmpty (r : NodeRange) : Bool := r.len == 0

/-- The technical form of a child list. -/
def debug (r : NodeRange) : String :=
  String.join ["NodeRange \x7b start: ", toString r.start, ", len: ", toString r.len, " \x7d"]

end NodeRange

end Arbor
