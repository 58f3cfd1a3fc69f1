/-
  Type variables and what stands for them.

  * `typeGiven` is the type that the program writes down at a type node;
  * `substitute` replaces the type variables that a call binds, and those of the
    receiver's structure by the type arguments of the receiver.  It looks into
    the type arguments of structures, and leaves unions as they are.

  Main statement: `typeGiven_eq`, the recursion that written types solve in an
  acyclic arena.
-/
import Arbor.Program.Interface

namespace Arbor.Program

variable (p : Program)

/-- The type that a type node denotes, if those of its children are known. -/
def typeGivenBy (given : NodeId → Ty) (id : NodeId) : Ty :=
  match p.node? id with
  | some .booleanType => .primitive .boolean
  | some .numberType => .primitive .number
  | some .textType => .primitive .text
  | some (.nameType n is) =>
    match p.resolve n id with
    | some (.structureDef d) => .instanceOf d ((p.arena.list is).map given)
    | some (.typeVariable v) => .typeVar v
    | _ => .unknown
  | _ => .unknown

/-- The type that a type node denotes. -/
def typeGiven (id : NodeId) : Ty := p.arena.descend .unknown p.typeGivenBy id

theorem typeGiven_eq {p : Program} (h : p.arena.Acyclic) (id : NodeId) :
    p.typeGiven id = p.typeGivenBy p.typeGiven id := by
  refine Arena.descend_eq h (fun id f g hfg => ?_) id
  unfold typeGivenBy
  split
  · rfl
  · rfl
  · rfl
  · next n is hn =>
    have : (p.arena.list is).map f = (p.arena.list is).map g :=
      List.map_congr_left fun c hc => hfg c <| by
        have hn : p.arena.node? id = some (.nameType n is) := hn
        simpa [Arena.children, hn, Arena.childrenOf, Node.slots, Node.fields, Arena.ofSlot] using hc
    rw [this]
  · rfl

/-- The types bound to type variables by a call, first binding first. -/
abbrev Bindings := List (NodeId × Ty)

/-- What stands for a type variable: what the call binds, or else the type
    argument of the receiver in the variable's place. -/
def valueOfVariable (receiver : Option Ty) (bindings : Bindings) (v : NodeId) : Ty :=
  match bindings.lookup v with
  | some t => t
  | none =>
    match receiver with
    | some (.instanceOf d args) =>
      match ((p.typeVariables d).idxOf? v).bind (args[·]?) with
      | some t => t
      | none => .typeVar v
    | _ => .typeVar v

section
variable (receiver : Option Ty) (bindings : Bindings)

mutual

/-- The type with its type variables replaced. -/
def substitute : Ty → Ty
  | .typeVar v => p.valueOfVariable receiver bindings v
  | .instanceOf d args => .instanceOf d (substituteAll args)
  | t => t

/-- Each of several types with its type variables replaced. -/
def substituteAll : List Ty → List Ty
  | [] => []
  | t :: ts => substitute t :: substituteAll ts

end

end

end Arbor.Program
