/-
  The analysis: the conflicts of a program.

  Each node is checked against its children and the definitions that it refers
  to, and everything that is found is kept, in the pre-order of the nodes.

  * a node whose relevant type is unknown has no conflicts of its own: something
    below it has been reported already;
  * `conflictsOf` gives the conflicts of one node, `check` those of a program.
-/
import Arbor.Conflict.Basic
import Arbor.Text.Lowercase
import Arbor.Typing.Acceptance

namespace Arbor.Program

variable (p : Program)

/-! ## Calls -/

/-- What is wrong with the value that a call gives to one of its inputs. -/
def givenConflicts (definition : NodeId) (receiver : Option Ty) (types : List Ty)
    (index : Nat) (input argument : NodeId) (given : Ty) : Typing (List Conflict) := do
  let expected ← p.inputType definition index receiver types
  if ← p.accepts expected given then
    return []
  else
    return [⟨.incompatibleInput input expected given, [argument], [input]⟩]

/-- What is wrong with one input of a call by the node `caller`. -/
def inputConflicts (caller definition : NodeId) (receiver : Option Ty)
    (arguments : List (NodeId × Ty)) (index : Nat) (input : NodeId) : Typing (List Conflict) :=
  match arguments[index]? with
  | some (argument, given) =>
    p.givenConflicts definition receiver (arguments.map Prod.snd) index input argument given
  | none =>
    if p.isRequired input then
      return [⟨.missingInput definition input, [caller], [input]⟩]
    else
      return []

/-- The inputs that a call gives beyond those that are taken. -/
def surplusConflicts (definition : NodeId) (surplus : List NodeId) : List Conflict :=
  if surplus.isEmpty then [] else [⟨.unexpectedInputs definition, surplus, [definition]⟩]

/-- What is wrong with the inputs of a call by the node `caller`. -/
def callConflicts (caller definition : NodeId) (receiver : Option Ty) (arguments : List NodeId) :
    Typing (List Conflict) := do
  let types ← arguments.mapM p.typeOf
  let inputs := p.inputs definition
  let found ← inputs.zipIdx.mapM fun (input, index) =>
    p.inputConflicts caller definition receiver (arguments.zip types) index input
  return found.flatten ++ surplusConflicts definition (arguments.drop inputs.length)

/-- What is wrong with a call. -/
def evaluateConflicts (id function : NodeId) (arguments : List NodeId) :
    Typing (List Conflict) := do
  match ← p.typeOf function with
  | .function f => p.callConflicts id f (← p.receiverTypeBy p.typeOf function) arguments
  | .definition d =>
    if (p.abstractFunctions d).isEmpty then p.callConflicts id d none arguments
    else return [⟨.notInstantiable d, [id], [d]⟩]
  | .unknown => return []
  | receiver => return [⟨.notAFunction (p.calledName? function) receiver, [id], [function]⟩]

/-! ## Operators -/

/-- Whether the left operand is itself an operation with another operator. -/
def mixesOperators (left : NodeId) (op : Name) : Bool :=
  match p.node? left with
  | some (.binaryOperation _ inner _) => inner != op
  | _ => false

/-- What is wrong with the right operand, given the inputs of the operator's
    function. -/
def operandConflicts (id function : NodeId) (receiver : Ty) (right : NodeId) :
    Typing (List Conflict) :=
  match p.inputs function with
  | [] => return [⟨.unexpectedInputs function, [right], []⟩]
  | first :: rest => do
    match rest.head?.filter p.isRequired with
    | some second => return [⟨.missingInput function second, [id], [second]⟩]
    | none =>
      let given ← p.typeOf right
      p.givenConflicts function (some receiver) [given] 0 first right given

/-- What is wrong with an operation. -/
def operationConflicts (id left : NodeId) (op : Name) (right : NodeId) :
    Typing (List Conflict) := do
  let receiver ← p.typeOf left
  if receiver = .unknown then
    return []
  match p.operatorFunction receiver op with
  | none => return [⟨.notAFunction (some op) receiver, [id], [left]⟩]
  | some function =>
    let order : List Conflict :=
      if p.mixesOperators left op then [⟨.orderOfOperations, [id], [left]⟩] else []
    return order ++ (← p.operandConflicts id function receiver right)

/-! ## Definitions -/

/-- The conflicts of a list of inputs, after inputs with the aliases `seen`, one
    of them optional or not. -/
def inputListConflictsAfter (seen : List Name) (optional : Bool) : List NodeId → List Conflict
  | [] => []
  | input :: rest =>
    let (seen, duplicates) := (p.names input).foldl
      (fun (seen, found) n =>
        if n ∈ seen then (seen, found ++ [⟨.duplicateInputNames n, [input], []⟩])
        else (n :: seen, found)) (seen, ([] : List Conflict))
    if p.isRequired input then
      let order : List Conflict := if optional then [⟨.requiredAfterOptional, [input], []⟩] else []
      duplicates ++ order ++ inputListConflictsAfter seen optional rest
    else
      duplicates ++ inputListConflictsAfter seen true rest

/-- What is wrong with a list of inputs: names that are given twice, and required
    inputs after optional ones. -/
def inputListConflicts (inputs : List NodeId) : List Conflict :=
  p.inputListConflictsAfter [] false inputs

/-- Declared interfaces that are none; what does not resolve is reported where it
    is used. -/
def interfaceConflicts (declared : List (NodeId × Option Definition)) : List Conflict :=
  declared.flatMap fun (reference, definition) =>
    match definition with
    | some (.structureDef i) =>
      if p.isInterface i then [] else [⟨.notAnInterface, [reference], [i]⟩]
    | some d => [⟨.notAnInterface, [reference], d.node?.toList⟩]
    | none => []

/-- A structure with abstract functions implements none and has no inputs. -/
def abstractConflicts (id : NodeId) : List Conflict :=
  if (p.abstractFunctions id).isEmpty then []
  else
    let implemented := p.implementedFunctions id
    let inputs := p.inputs id
    (if implemented.isEmpty then [] else [⟨.implemented, [id], implemented⟩]) ++
      (if inputs.isEmpty then [] else [⟨.disallowedInputs, [id], inputs⟩])

/-- The functions that a structure owes to its interfaces: if it implements
    anything, every abstract function of every interface that it reaches. -/
def owedFunctions (id : NodeId) : List (NodeId × NodeId) :=
  if (p.declaredInterfaces id).isEmpty || (p.implementedFunctions id).isEmpty then []
  else (p.interfaces id).flatMap fun i => (p.abstractFunctions i).map (i, ·)

/-- The functions that a structure owes and does not implement. -/
def unimplementedConflicts (id : NodeId) : Typing (List Conflict) := do
  let found ← (p.owedFunctions id).mapM fun (interface, function) => do
    if ← (p.implementedFunctions id).anyM (p.implementsFunction · function) then
      return []
    else
      return [⟨.unimplemented interface function, [id], [function]⟩]
  return found.flatten

/-- What is wrong with a structure. -/
def structureConflicts (id : NodeId) : Typing (List Conflict) :=
  return p.inputListConflicts (p.inputs id) ++ p.interfaceConflicts (p.declaredInterfaces id) ++
    p.abstractConflicts id ++ (← p.unimplementedConflicts id)

/-! ## Aliases -/

/-- The alias of a node with its language. -/
def aliasAt? (id : NodeId) : Option (NodeId × Name × Option Name) :=
  match p.node? id with
  | some (.aliasName n l) => some (id, n, l)
  | _ => none

/-- What is wrong with an alias, given one before it. -/
def aliasConflict? (a earlier : NodeId × Name × Option Name) : Option Conflict :=
  let (id, n, l) := a
  let (other, m, k) := earlier
  if n = m ∧ l = k then some ⟨.duplicateAliases n, [id], [other]⟩
  else if n ≠ m ∧ Text.lowercase (p.textOf n) = Text.lowercase (p.textOf m) then
    some ⟨.caseSensitive n m, [id], [other]⟩
  else none

/-- The conflicts of aliases after others, at most one for each. -/
def aliasConflictsAfter (before : List (NodeId × Name × Option Name)) :
    List (NodeId × Name × Option Name) → List Conflict
  | [] => []
  | a :: rest =>
    (before.findSome? (p.aliasConflict? a)).toList ++ aliasConflictsAfter (before ++ [a]) rest

/-- What is wrong with the aliases of one definition. -/
def aliasConflicts (aliases : List NodeId) : List Conflict :=
  p.aliasConflictsAfter [] (aliases.filterMap p.aliasAt?)

/-! ## Nodes -/

/-- Whether the node is `this` inside a structure. -/
def isReceiver (id : NodeId) (n : Name) : Bool :=
  n == .this && (p.enclosingStructure id).isSome

/-- The conflicts of one node. -/
def conflictsOf (id : NodeId) : Typing (List Conflict) :=
  match p.node? id with
  | some (.binaryOperation left op right) => p.operationConflicts id left op right
  | some (.evaluate function is) => p.evaluateConflicts id function (p.arena.list is)
  | some (.structureDefinition ..) => p.structureConflicts id
  | some (.functionDefinition ..) => return p.inputListConflicts (p.inputs id)
  | some (.reference n) =>
    if (p.resolve n id).isSome || p.isReceiver id n then return []
    else return [⟨.unknownName n, [id], []⟩]
  | some (.propertyReference receiver n) => do
    let t ← p.typeOf receiver
    if t = .unknown ∨ (p.definitionInType t n).isSome then return []
    else return [⟨.unknownName n, [id], [receiver]⟩]
  | some (.nameType n _) =>
    match p.resolve n id with
    | some (.structureDef _) | some (.typeVariable _) => return []
    | _ => return [⟨.unknownTypeName n, [id], []⟩]
  | some (.borrow n) =>
    if (p.share? n).isSome then return [] else return [⟨.unknownBorrow n, [id], []⟩]
  | some (.bind _ (some type) (some value)) => do
    let expected := p.typeGiven type
    let given ← p.typeOf value
    if ← p.accepts expected given then return []
    else return [⟨.incompatibleBind expected given, [value], [type]⟩]
  | some (.conditional condition _ _) => do
    let given ← p.typeOf condition
    if ← p.accepts (.primitive .boolean) given then return []
    else return [⟨.expectedBooleanCondition given, [condition], [id]⟩]
  | some (.names aliases) => return p.aliasConflicts (p.arena.list aliases)
  | some (.unparsable _) => return [⟨.unparsable, [id], []⟩]
  | _ => return []

/-- Every conflict of the program, in the pre-order of the nodes that have them. -/
def check : Typing (List Conflict) := return (← p.tree.nodes.mapM p.conflictsOf).flatten

/-- Whether a conflict stops the program from running. -/
def hasFatal (conflicts : List Conflict) : Bool := conflicts.any Conflict.isFatal

end Arbor.Program
