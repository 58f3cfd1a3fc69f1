/-
  Interfaces and members.

  A structure implements the structures that its interface references resolve
  to, and those that they implement, up to a fixed number of links.

  * `interfaces` searches depth first and lists each structure once, in the
    order in which the search meets them;
  * `member` finds a definition by name in a structure, and then in its
    interfaces; primitive types have the methods of the basis.
-/
import Arbor.Program.Resolution

namespace Arbor

/-- The greatest number of links from a structure to an interface of it. -/
def maxInterfaceDepth : Nat := 64

namespace Program

variable (p : Program)

/-- The interface references of a structure, with what each stands for. -/
def declaredInterfaces (id : NodeId) : List (NodeId × Option Definition) :=
  match p.node? id with
  | some (.structureDefinition _ fs _ _ _) => (p.arena.list fs).map fun r =>
      match p.node? r with
      | some (.reference n) => (r, p.resolve n r)
      | _ => (r, none)
  | _ => []

/-- The structures that a structure declares to implement. -/
def directInterfaces (id : NodeId) : List NodeId :=
  (p.declaredInterfaces id).filterMap fun
    | (_, some (.structureDef i)) => some i
    | _ => none

/-- Searches on from a structure, with `links` links left; `found` are the
    structures met so far, the structure that the search began at included. -/
def searchInterfaces : Nat → List NodeId → NodeId → List NodeId
  | 0, found, _ => found
  | links + 1, found, id =>
    (p.directInterfaces id).foldl
      (fun found i => if i ∈ found then found else searchInterfaces links (found ++ [i]) i) found

/-- Every other structure that a structure implements, each once. -/
def interfaces (id : NodeId) : List NodeId :=
  (p.searchInterfaces maxInterfaceDepth [id] id).drop 1

/-- Whether a structure is an interface or implements it. -/
def implements (id interface : NodeId) : Bool :=
  id == interface || interface ∈ p.interfaces id

/-! ## Members -/

/-- The member of a structure with a name, its interfaces left aside. -/
def ownMember (n : Name) (id : NodeId) : Option Definition :=
  p.firstNamed n [p.inputList id, p.statementList id]

/-- The member of a structure with a name. -/
def member (id : NodeId) (n : Name) : Option Definition :=
  match p.ownMember n id with
  | some d => some d
  | none => (p.interfaces id).findSome? (p.ownMember n)

/-- What a name stands for on the values of a type. -/
def definitionInType (t : Ty) (n : Name) : Option Definition :=
  match t with
  | .instanceOf d _ => p.member d n
  | .primitive q => (p.basis.function? q n).map .function
  | _ => none

/-- The function of an operator on the values of a type. -/
def operatorFunction (t : Ty) (n : Name) : Option NodeId :=
  match p.definitionInType t n with
  | some (.function f) => some f
  | _ => none

end Program

end Arbor
