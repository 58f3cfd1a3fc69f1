/-
  Static types of expressions.

  The type of a node follows from its kind, from the types of its children and
  from the definitions that its names resolve to.  Types are remembered, and a
  node that is asked for its own type while it is being computed gets the
  unknown type, so typing ends on programs with recursive definitions.

  * the functions of the first section say how types follow from each other;
    they take the function `typeOf` that gives the type of a node, in whatever
    monad it does so;
  * `Program.typeOf` ties the knot: each open computation is that of another
    node, so there are never more of them than nodes.
-/
import Arbor.Typing.Memo
import Arbor.Typing.Substitution

namespace Arbor.Program

variable (p : Program)

/-! ## How types follow from each other -/

section
variable {μ : Type → Type} [Monad μ] (typeOf : NodeId → μ Ty)

/-- The declared type of a named value, or else the type of its value. -/
def bindTypeBy (id : NodeId) : μ Ty :=
  match p.node? id with
  | some (.bind _ (some t) _) => return p.typeGiven t
  | some (.bind _ none (some value)) => typeOf value
  | _ => return .unknown

/-- The type of what a name stands for. -/
def definitionTypeBy : Definition → μ Ty
  | .bind id => p.bindTypeBy typeOf id
  | .function id => return .function id
  | .structureDef id => return .definition id
  | .typeVariable id => return .typeVar id
  | .stream id => return ((p.shares.bind (·.stream? id)).map StreamInfo.type).getD .unknown

/-- The declared type of the value of a function, or else the type of its body. -/
def outputBy (id : NodeId) : μ Ty :=
  match p.node? id with
  | some (.functionDefinition _ _ _ (some output) _) => return p.typeGiven output
  | some (.functionDefinition _ _ _ none (some body)) => typeOf body
  | _ => return .unknown

/-- Binds the type variables of a definition from the types given to the inputs
    that are declared with them; the first known type counts. -/
def inferBy (id : NodeId) (args : List Ty) : μ Bindings :=
  ((p.inputs id).zip args).foldlM (fun bindings (input, arg) => do
    match ← p.bindTypeBy typeOf input with
    | .typeVar v =>
      if v ∈ p.typeVariables id ∧ arg ≠ .unknown ∧ (bindings.lookup v).isNone then
        return bindings ++ [(v, arg)]
      else
        return bindings
    | _ => return bindings) []

/-- The type of a call. -/
def outputTypeBy (id : NodeId) (receiver : Option Ty) (args : List Ty) : μ Ty := do
  let bindings ← p.inferBy typeOf id args
  return p.substitute receiver bindings (← p.outputBy typeOf id)

/-- The type that a call expects at one of its inputs. -/
def inputTypeBy (id : NodeId) (index : Nat) (receiver : Option Ty) (args : List Ty) :
    μ Ty := do
  match (p.inputs id)[index]? with
  | none => return .unknown
  | some input =>
    let bindings ← p.inferBy typeOf id args
    return p.substitute receiver bindings (← p.bindTypeBy typeOf input)

/-- The type of the receiver of what is called, if it is called as a member. -/
def receiverTypeBy (function : NodeId) : μ (Option Ty) :=
  match p.node? function with
  | some (.propertyReference receiver _) => some <$> typeOf receiver
  | _ => return none

/-- The type of an instance that is created with inputs of the given types. -/
def instanceTypeBy (id : NodeId) (args : List Ty) : μ Ty := do
  let bindings ← p.inferBy typeOf id args
  return .instanceOf id ((p.typeVariables id).map fun v => (bindings.lookup v).getD .unknown)

/-- The type of a node. -/
def computeTypeBy (id : NodeId) : μ Ty :=
  match p.node? id with
  | some (.booleanLiteral _) => return .primitive .boolean
  | some (.numberLiteral _) => return .primitive .number
  | some (.textLiteral _) => return .primitive .text
  | some (.reference n) =>
    match p.resolve n id with
    | some d => p.definitionTypeBy typeOf d
    | none =>
      if n = .this then return ((p.enclosingStructure id).map Ty.instances).getD .unknown
      else return .unknown
  | some (.propertyReference receiver n) => do
    let t ← typeOf receiver
    match p.definitionInType t n with
    | some d => return p.substitute (some t) [] (← p.definitionTypeBy typeOf d)
    | none => return .unknown
  | some (.binaryOperation left op right) => do
    let t ← typeOf left
    match p.operatorFunction t op with
    | some f => p.outputTypeBy typeOf f (some t) [← typeOf right]
    | none => return .unknown
  | some (.conditional _ yes no) => return Ty.join (← typeOf yes) (← typeOf no)
  | some (.evaluate function is) => do
    let args ← (p.arena.list is).mapM typeOf
    match ← typeOf function with
    | .function f => p.outputTypeBy typeOf f (← p.receiverTypeBy typeOf function) args
    | .definition d => p.instanceTypeBy typeOf d args
    | _ => return .unknown
  | some (.block ss) =>
    match (p.arena.list ss).getLast? with
    | some last => typeOf last
    | none => return .unknown
  | some (.bind ..) => p.bindTypeBy typeOf id
  | some (.program _ main) => typeOf main
  | some (.borrow n) =>
    match p.share? n with
    | some (.structureDef d) => return .definition d
    | some (.stream s) => p.definitionTypeBy typeOf (.stream s)
    | none => return .unknown
  | some (.functionDefinition ..) => return .function id
  | some (.structureDefinition ..) => return .definition id
  | some (.typeVariable _) => return .typeVar id
  | some n => if n.isType then return p.typeGiven id else return .unknown
  | none => return .unknown

end

/-! ## Types of nodes -/

/-- The type of a node, with at most `depth` computations inside each other. -/
def typeWithin : Nat → NodeId → Typing Ty
  | 0, _ => return .unknown
  | depth + 1, id => do
    let memo ← get
    match memo.types.get? id with
    | some t => return t
    | none =>
      if id ∈ memo.computing then
        return .unknown
      modify (·.enter id)
      let t ← p.computeTypeBy (typeWithin depth) id
      modify (·.leave id t)
      return t

/-- The static type of a node. -/
def typeOf (id : NodeId) : Typing Ty := p.typeWithin (p.arena.size + 1) id

/-- The declared type of a named value, or else the type of its value. -/
def bindType (id : NodeId) : Typing Ty := p.bindTypeBy p.typeOf id

/-- The type of what a name stands for. -/
def definitionType (d : Definition) : Typing Ty := p.definitionTypeBy p.typeOf d

/-- The declared type of the value of a function, or else the type of its body. -/
def output (id : NodeId) : Typing Ty := p.outputBy p.typeOf id

/-- The type of a call with a receiver and with inputs of the given types. -/
def outputType (id : NodeId) (receiver : Option Ty) (args : List Ty) : Typing Ty :=
  p.outputTypeBy p.typeOf id receiver args

/-- The type that such a call expects at one of its inputs. -/
def inputType (id : NodeId) (index : Nat) (receiver : Option Ty) (args : List Ty) : Typing Ty :=
  p.inputTypeBy p.typeOf id index receiver args

end Arbor.Program
