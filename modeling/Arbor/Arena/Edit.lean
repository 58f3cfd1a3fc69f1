/-
  Edits.

  Nodes never change, so an edit allocates: the changed node and its ancestors
  up to the root of the edit, while all other subtrees are shared between the
  old and the new version.  An edit that fails may have allocated before it
  failed; what it allocated stays in the arena, out of use.

  * `replace root target replacement` puts another node, or nothing, in the
    place of every occurrence of `target` below `root`;
  * `cloneNode` gives a copy of one node with the same children, and `withField`
    a copy with new contents in one slot.
-/
import Arbor.Arena.Descent

namespace Arbor

/-- An edit works on an arena and may fail, and what it allocated stays. -/
abbrev EditM := ExceptT EditError (StateM Arena)

namespace EditM

/-- Adds a node. -/
def alloc (n : Node) : EditM NodeId := modifyGet fun a => a.alloc n

/-- Adds a child list. -/
def allocList (ids : List NodeId) : EditM NodeRange := ExceptT.mk fun a => a.allocList ids

end EditM

namespace Node

/-- The slots after new contents are put into the slot called `field`: nothing
    if the node has no such slot, and an error if it holds children in another
    way. -/
def setField (n : Node) (field : String) (child : Child) : Except EditError Node :=
  match n.fields.findIdx? (·.1 == field) with
  | none => .error (.unknownField n.kindName field)
  | some i =>
    match n.slots[i]? with
    | some old =>
      if old.sameShape child then .ok (n.withSlots (n.slots.set i child))
      else .error (.shapeMismatch n.kindName field)
    | none => .error (.unknownField n.kindName field)

/-- The node with new contents in the slots that were changed. -/
def update (n : Node) (changes : List (Option Child)) : Node :=
  n.withSlots (List.zipWith (fun old change => change.getD old) n.slots changes)

end Node

namespace Arena

/-! ## Rebuilding -/

section
variable (target : NodeId) (replacement : Option NodeId)
variable (rebuilt : NodeId → EditM (Option NodeId))

/-- What one item of a child list becomes, and whether it changed: the
    replacement takes the place of `target`, and other items are rebuilt. -/
def rebuildItem (item : NodeId) : EditM (List NodeId × Bool) := do
  if item = target then
    return (replacement.toList, true)
  match ← rebuilt item with
  | some new => return ([new], true)
  | none => return ([item], false)

/-- The new contents of one slot of a node of the given kind, or nothing if
    `target` does not occur there. -/
def rebuildSlot (kind : String) : String × Child → EditM (Option Child)
  | (field, .one c) => do
    if c = target then
      match replacement with
      | some new => return some (.one new)
      | none => throw (.requiredSlot kind field)
    return (← rebuilt c).map .one
  | (_, .optional (some c)) => do
    if c = target then
      return some (.optional replacement)
    return (← rebuilt c).map fun new => .optional (some new)
  | (_, .optional none) => return none
  | (_, .list r) => do
    let items ← ((← get).list r).mapM (rebuildItem target replacement rebuilt)
    if items.any (·.2) then
      return some (.list (← EditM.allocList (items.flatMap (·.1))))
    return none

/-- A copy of a node with what its children become, or nothing if `target` does
    not occur strictly below it. -/
def rebuildNode (id : NodeId) : EditM (Option NodeId) := do
  match (← get).node? id with
  | none => return none
  | some n =>
    let changes ← n.fields.mapM (rebuildSlot target replacement rebuilt n.kindName)
    if changes.all Option.isNone then
      return none
    return some (← EditM.alloc (n.update changes))

end

/-- A copy of a node in which `target`, strictly below it, is replaced; nothing
    if it does not occur there. -/
def rebuild (target : NodeId) (replacement : Option NodeId) (id : NodeId) :
    EditM (Option NodeId) := do
  (← get).descend (pure none) (rebuildNode target replacement) id

/-! ## Edits -/

/-- A new node with the kind, the data and the very children of an old one. -/
def cloneNode (id : NodeId) : EditM NodeId := do
  match (← get).node? id with
  | none => throw (.unknownNode id)
  | some n => EditM.alloc n

/-- The root after `target` is replaced, or removed, wherever it occurs. -/
def replace (root target : NodeId) (replacement : Option NodeId) : EditM NodeId := do
  if ((← get).node? root).isNone then
    throw (.unknownNode root)
  if target = root then
    match replacement with
    | some new => return new
    | none => throw .removeRoot
  match ← rebuild target replacement root with
  | some new => return new
  | none => throw (.notFound root target)

/-- A copy of a node with new contents in the slot called `field`. -/
def withField (id : NodeId) (field : String) (child : Child) : EditM NodeId := do
  match (← get).node? id with
  | none => throw (.unknownNode id)
  | some n =>
    match n.setField field child with
    | .ok changed => EditM.alloc changed
    | .error e => throw e

end Arena

end Arbor
