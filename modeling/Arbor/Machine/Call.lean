/-
  Calls.

  The step that starts an evaluation takes what is called and its arguments from
  the top frame.  It raises an exception, or asks for a frame: that of a function
  with a body, or of a structure without abstract functions.
-/
import Arbor.Machine.Finish

namespace Arbor

/-- A frame that is asked for. -/
structure Call where
  /-- The calling node. -/
  creator : NodeId
  /-- The function or structure that is called. -/
  definition : NodeId
  /-- The scope that it closes over. -/
  closure : Option ScopeId
  /-- The receiver. -/
  this : Option Value
  /-- The values that are given to the inputs. -/
  arguments : List Value

/-- What a step asks of the frames. -/
inductive Action where
  /-- To go on. -/
  | proceed
  /-- To go on, leaving steps out. -/
  | skip (count : Nat)
  /-- To go on elsewhere. -/
  | jump (offset : Nat)
  /-- To take frames away for an exception. -/
  | raise (e : Exception)
  /-- To open a frame. -/
  | call (c : Call)

namespace Program

variable (p : Program)

/-- Calls a value; `name` is what it was called by. -/
def callAction (creator : NodeId) (name : Option Name) (callee : Value) (arguments : List Value) :
    Action :=
  let function := fun d closure this =>
    if (p.node? d).any Node.isAbstractFunction then
      .raise ⟨.function (p.primaryName? d), creator⟩
    else
      .call ⟨creator, d, closure, this, arguments⟩
  match callee with
  | .function d closure => function d closure none
  | .method d closure receiver => function d closure (some receiver)
  | .definition d closure =>
    if (p.abstractFunctions d).isEmpty then .call ⟨creator, d, closure, none, arguments⟩
    else .raise ⟨.function (p.primaryName? d), creator⟩
  | _ => .raise ⟨.function name, creator⟩

/-- The latest values of a frame, the earliest of them first; a missing one is an
    exception at the node. -/
def taken (frame : Frame) (id : NodeId) (count : Nat) : List Value :=
  let missing : Value := .exception ⟨.empty, id⟩
  let present := frame.operands.take count
  (present ++ List.replicate (count - present.length) missing).reverse

/-- The step of a node that starts an evaluation, with the frame after it. -/
def startEvaluation (frame : Frame) (id : NodeId) : Frame × Action :=
  match p.node? id with
  | some (.binaryOperation _ op _) =>
    let values := taken frame id 2
    let frame := frame.drop 2
    match values.findSome? Value.exception?, values with
    | some e, _ => (frame, .raise e)
    | none, [left, right] =>
      match p.method? left op with
      | some method => (frame, p.callAction id (some op) method [right])
      | none => (frame, .raise ⟨.function (some op), id⟩)
    | none, _ => (frame, .raise ⟨.empty, id⟩)
  | some (.evaluate function is) =>
    let count := (p.arena.list is).length + 1
    let values := taken frame id count
    let frame := frame.drop count
    match values.findSome? Value.exception?, values with
    | some e, _ => (frame, .raise e)
    | none, callee :: arguments =>
      (frame, p.callAction id (p.calledName? function) callee arguments)
    | none, [] => (frame, .raise ⟨.empty, id⟩)
  | _ => (frame, .raise ⟨.function none, id⟩)

/-! ## Opening frames -/

/-- The default of an input, which only a literal gives outside a frame. -/
def defaultValue? (input : NodeId) : Option Value :=
  match p.node? input with
  | some (.bind _ _ (some value)) => p.literal? value
  | _ => none

/-- The values of inputs, given or by default; the first input without one is an
    error. -/
def inputValues : List NodeId → List Value → Except NodeId (List (NodeId × Value))
  | [], _ => .ok []
  | input :: inputs, v :: arguments => do return (input, v) :: (← inputValues inputs arguments)
  | input :: inputs, [] =>
    match p.defaultValue? input with
    | some v => do return (input, v) :: (← inputValues inputs [])
    | none => .error input

/-- The scope of a call: inside the closure, with the inputs bound. -/
def callScope (c : Call) : Except Exception Scope :=
  match p.inputValues (p.inputs c.definition) c.arguments with
  | .error input => .error ⟨.missingValue (p.primaryName? input), c.creator⟩
  | .ok values => .ok ⟨values.foldl (fun t (input, v) => t.insert input v) .empty, c.closure⟩

/-- The frame of a call whose scope was created. -/
def openFrame (c : Call) (scope : ScopeId) : Frame where
  definition := some c.definition
  creator := c.creator
  steps := (p.compileBody c.definition).toArray
  pc := 0
  scope := scope
  this := c.this
  operands := []
  phase := .opened

end Program

end Arbor
