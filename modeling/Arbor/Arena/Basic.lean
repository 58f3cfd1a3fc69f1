/-
  The arena: every node of every version of a program.

  Nodes and child lists are only ever added.  A node is reached by its id, a
  child list by the range that its allocation returned.

  * `alloc` adds a node, `allocList` a child list of at most 65535 ids;
  * `node?` and `list` read them back, and `children` gives the children of a
    node in grammar order.
-/
import Arbor.Node.Basic

namespace Arbor

/-- Why an edit of a program fails. -/
inductive EditError where
  /-- The node to change is not in the arena. -/
  | unknownNode (id : NodeId)
  /-- The node to replace is not below the root. -/
  | notFound (root target : NodeId)
  /-- A child that must be there would be removed. -/
  | requiredSlot (kind field : String)
  /-- The kind of node has no such slot. -/
  | unknownField (kind field : String)
  /-- The slot holds children in another way. -/
  | shapeMismatch (kind field : String)
  /-- The root itself would be removed. -/
  | removeRoot
  /-- A child list would be too long. -/
  | listTooLong
deriving DecidableEq, Repr

/-- The greatest number of ids in a child list. -/
def maxListLength : Nat := 65535

/-- The wording of an edit error. -/
def EditError.message : EditError → String
  | unknownNode id => s!"node {id.display} is not in the arena"
  | notFound root target => s!"node {target.display} does not occur under {root.display}"
  | requiredSlot kind field => s!"cannot remove the required `{field}` of a {kind}"
  | unknownField kind field => s!"a {kind} has no `{field}`"
  | shapeMismatch kind field => s!"`{field}` of a {kind} does not hold that kind of child"
  | removeRoot => "cannot remove the root of an edit"
  | listTooLong => s!"child list is longer than {maxListLength} nodes"

/-- The nodes of every version of a program, and their child lists. -/
structure Arena where
  /-- The nodes in the order of their ids. -/
  nodes : Array Node
  /-- The ids of all child lists, one list after another. -/
  lists : Array NodeId
deriving Repr, Inhabited

namespace Arena

/-- The arena without nodes. -/
def empty : Arena := ⟨#[], #[]⟩

/-- The number of nodes. -/
def size (a : Arena) : Nat := a.nodes.size

/-! ## Allocation -/

/-- Adds a node. -/
def alloc (a : Arena) (n : Node) : NodeId × Arena :=
  (⟨a.nodes.size⟩, { a with nodes := a.nodes.push n })

/-- Adds a child list.  A list that is too long is refused, but its ids stay in
    the list storage. -/
def allocList (a : Arena) (ids : List NodeId) : Except EditError NodeRange × Arena :=
  (if ids.length ≤ maxListLength then .ok ⟨a.lists.size, ids.length⟩ else .error .listTooLong,
    { a with lists := a.lists ++ ids.toArray })

/-! ## Access -/

/-- The node with an id. -/
def node? (a : Arena) (id : NodeId) : Option Node := a.nodes[id.raw]?

/-- The ids of a child list; a range that is not all in storage has none. -/
def list (a : Arena) (r : NodeRange) : List NodeId :=
  if r.start + r.len ≤ a.lists.size then
    (a.lists.extract r.start (r.start + r.len)).toList
  else
    []

/-- The children held by one slot. -/
def ofSlot (a : Arena) : Child → List NodeId
  | .one id => [id]
  | .optional id => id.toList
  | .list r => a.list r

/-- The children of a node in grammar order. -/
def childrenOf (a : Arena) (n : Node) : List NodeId := n.slots.flatMap a.ofSlot

/-- The children of a node, by its id. -/
def children (a : Arena) (id : NodeId) : List NodeId :=
  match a.node? id with
  | some n => a.childrenOf n
  | none => []

theorem children_eq {a : Arena} {id : NodeId} {n : Node} (h : a.node? id = some n) :
    a.children id = a.childrenOf n := by
  rw [children, h]

/-- The kind of a node, by its id. -/
def kindName (a : Arena) (id : NodeId) : String :=
  match a.node? id with
  | some n => n.kindName
  | none => "unknown"

/-! ## Children by kind -/

section
variable (a : Arena)

attribute [local simp] Node.slots Node.fields ofSlot

@[simp] theorem childrenOf_program (borrows : NodeRange) (main : NodeId) :
    a.childrenOf (.program borrows main) = a.list borrows ++ [main] := by
  simp [childrenOf]

@[simp] theorem childrenOf_block (statements : NodeRange) :
    a.childrenOf (.block statements) = a.list statements := by
  simp [childrenOf]

@[simp] theorem childrenOf_bind (ns : NodeId) (type value : Option NodeId) :
    a.childrenOf (.bind ns type value) = ns :: (type.toList ++ value.toList) := by
  simp [childrenOf]

@[simp] theorem childrenOf_propertyReference (receiver : NodeId) (n : Name) :
    a.childrenOf (.propertyReference receiver n) = [receiver] := by
  simp [childrenOf]

@[simp] theorem childrenOf_binaryOperation (left : NodeId) (op : Name) (right : NodeId) :
    a.childrenOf (.binaryOperation left op right) = [left, right] := by
  simp [childrenOf]

@[simp] theorem childrenOf_conditional (condition yes no : NodeId) :
    a.childrenOf (.conditional condition yes no) = [condition, yes, no] := by
  simp [childrenOf]

@[simp] theorem childrenOf_evaluate (function : NodeId) (inputs : NodeRange) :
    a.childrenOf (.evaluate function inputs) = function :: a.list inputs := by
  simp [childrenOf]

@[simp] theorem childrenOf_functionDefinition (ns : NodeId) (vs is : NodeRange)
    (output body : Option NodeId) :
    a.childrenOf (.functionDefinition ns vs is output body) =
      ns :: (a.list vs ++ (a.list is ++ (output.toList ++ body.toList))) := by
  simp [childrenOf]

@[simp] theorem childrenOf_structureDefinition (ns : NodeId) (fs vs is : NodeRange)
    (body : Option NodeId) :
    a.childrenOf (.structureDefinition ns fs vs is body) =
      ns :: (a.list fs ++ (a.list vs ++ (a.list is ++ body.toList))) := by
  simp [childrenOf]

end

/-! ## Laws of allocation -/

@[simp] theorem node?_alloc (a : Arena) (n : Node) :
    (a.alloc n).2.node? (a.alloc n).1 = some n := by
  simp [alloc, node?]

theorem node?_alloc_of_some {a : Arena} {id : NodeId} {m : Node} (h : a.node? id = some m)
    (n : Node) : (a.alloc n).2.node? id = some m := by
  simp only [node?, alloc] at h ⊢
  rw [Array.getElem?_push]
  have hlt : id.raw < a.nodes.size := (Array.getElem?_eq_some_iff.1 h).1
  simp [Nat.ne_of_lt hlt, h]

theorem allocList_isOk_iff (a : Arena) (ids : List NodeId) :
    (∃ r, (a.allocList ids).1 = .ok r) ↔ ids.length ≤ maxListLength := by
  unfold allocList
  split <;> simp_all

theorem list_allocList {a : Arena} {ids : List NodeId} {r : NodeRange}
    (h : (a.allocList ids).1 = .ok r) : (a.allocList ids).2.list r = ids := by
  unfold allocList at h ⊢
  split at h
  · cases h
    simp [list]
  · cases h

theorem list_allocList_of_le {a : Arena} {r : NodeRange} (h : r.start + r.len ≤ a.lists.size)
    (ids : List NodeId) : (a.allocList ids).2.list r = a.list r := by
  simp only [allocList, list, h, if_true, Array.size_append]
  rw [if_pos (Nat.le_trans h (Nat.le_add_right ..))]
  simp [Array.extract_append, Nat.sub_eq_zero_of_le h]

end Arena

end Arbor
