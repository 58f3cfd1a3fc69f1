/-
  Resolution of names.

  A name is resolved from the node that uses it upwards: each ancestor makes
  some definitions visible to the child through which it was reached, and the
  nearest definition wins.

  * a block shows the statements before the child, the latest first, and then
    the child itself if it is a function or a structure, which may refer to
    themselves;
  * a function shows its inputs and type variables, a structure also the
    statements of its block;
  * a program shows the shares that it borrows.

  Main statements: `firstNamed_eq` and `visibleInBlock_eq`, what lists and blocks
  show, by their items.
-/
import Arbor.Arena.Search
import Arbor.Program.Basic

namespace Arbor.Program

variable (p : Program)

/-- What a node defines, if `n` is one of its aliases. -/
def definitionNamed (n : Name) (id : NodeId) : Option Definition :=
  match p.classify id with
  | some d => if p.hasName id n then some d else none
  | none => none

/-- The first node of several child lists that defines `n`. -/
def firstNamed (n : Name) (lists : List NodeRange) : Option Definition :=
  lists.findSome? fun r => p.arena.findIn? r (p.definitionNamed n)

/-- Whether the node is a function or a structure, which may refer to itself. -/
def namesItself (id : NodeId) : Bool :=
  match p.node? id with
  | some (.functionDefinition ..) | some (.structureDefinition ..) => true
  | _ => false

/-- What a block shows to one of its statements. -/
def visibleInBlock (statements : NodeRange) (child : NodeId) (n : Name) : Option Definition :=
  match p.arena.placeIn? statements child with
  | none => none
  | some place =>
    match p.arena.findBefore? statements place (p.definitionNamed n) with
    | some d => some d
    | none => if p.namesItself child then p.definitionNamed n child else none

/-- Whether a program borrows a name. -/
def borrowsName (borrows : NodeRange) (n : Name) : Bool :=
  (p.arena.list borrows).any fun b => p.node? b == some (.borrow n)

/-- What a borrowed name stands for. -/
def borrowed (n : Name) : Option Definition :=
  match p.share? n with
  | some (.structureDef id) => some (.structureDef id)
  | some (.stream id) => some (.stream id)
  | none => none

/-- The definition of `n` that `scope` makes visible to its child. -/
def definitionInScope (scope child : NodeId) (n : Name) : Option Definition :=
  match p.node? scope with
  | some (.block statements) => p.visibleInBlock statements child n
  | some (.functionDefinition _ vs is _ _) => p.firstNamed n [is, vs]
  | some (.structureDefinition _ _ vs is _) => p.firstNamed n [is, vs, p.statementList scope]
  | some (.program borrows _) => if p.borrowsName borrows n then p.borrowed n else none
  | _ => none

/-- Resolves a name along a chain of ancestors, of which the first was reached
    from `child`. -/
def resolveAlong (n : Name) : NodeId → List NodeId → Option Definition
  | _, [] => none
  | child, scope :: above =>
    match p.definitionInScope scope child n with
    | some d => some d
    | none => resolveAlong n scope above

/-- What a name stands for where a node uses it. -/
def resolve (n : Name) (user : NodeId) : Option Definition :=
  p.resolveAlong n user (p.tree.ancestors user)

/-- The nearest structure around a node. -/
def enclosingStructure (id : NodeId) : Option NodeId :=
  (p.tree.ancestors id).find? fun a => (p.node? a).any Node.isStructureDefinition

/-! ## Searches as searches in lists -/

/-- The first definition is the first in the lists one after another. -/
theorem firstNamed_eq (n : Name) (lists : List NodeRange) :
    p.firstNamed n lists = (lists.flatMap p.arena.list).findSome? (p.definitionNamed n) := by
  unfold firstNamed
  induction lists with
  | nil => rfl
  | cons r lists ih =>
    rw [List.findSome?_cons, ih, Arena.findIn?_eq, List.flatMap_cons, List.findSome?_append]
    cases (p.arena.list r).findSome? (p.definitionNamed n) <;> rfl

/-- A block shows the latest definition before a statement, or the statement
    itself. -/
theorem visibleInBlock_eq (statements : NodeRange) (child : NodeId) (n : Name) :
    p.visibleInBlock statements child n =
      match (p.arena.list statements).idxOf? child with
      | none => none
      | some place =>
        match ((p.arena.list statements).take place).reverse.findSome? (p.definitionNamed n) with
        | some d => some d
        | none => if p.namesItself child then p.definitionNamed n child else none := by
  unfold visibleInBlock
  simp only [Arena.placeIn?_eq, Arena.findBefore?_eq]

end Arbor.Program
