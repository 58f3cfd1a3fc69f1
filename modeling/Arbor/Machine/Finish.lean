/-
  What nodes give at their finish.

  The finish of a node takes the values of its children from the top frame and
  gives the value of the node, which is bound in the scope of the frame if the
  node is a definition or a named value.  A node whose children were skipped
  gives the value that is remembered for it, and takes nothing.
-/
import Arbor.Machine.Basic

namespace Arbor.Program

variable (p : Program)

/-! ## Values of names and members -/

/-- The value of a literal. -/
def literal? (id : NodeId) : Option Value :=
  match p.node? id with
  | some (.booleanLiteral b) => some (.bool b)
  | some (.numberLiteral bits) => some (.ofBits bits)
  | some (.textLiteral n) => some (.text (p.textOf n))
  | _ => none

/-- The function of a method of a primitive value. -/
def primitiveMethod? (v : Value) (n : Name) : Option NodeId :=
  v.primitive?.bind (p.basis.function? · n)

/-- The function that a name stands for on a value, reached from the value. -/
def method? (receiver : Value) (n : Name) : Option Value :=
  match receiver with
  | .instanceOf d scope =>
    match p.member d n with
    | some (.function f) => some (.method f (some scope) receiver)
    | _ => none
  | _ => (p.primitiveMethod? receiver n).map fun f => .method f none receiver

/-- The value of the member `n` of a value, at the node `id`. -/
def propertyValue (scopes : Scopes) (id : NodeId) (receiver : Value) (n : Name) : Value :=
  let missing : Value := .exception ⟨.name n, id⟩
  match receiver with
  | .exception _ => receiver
  | .instanceOf d scope =>
    match p.member d n with
    | some (.bind b) => (scopes.lookup scope b).getD missing
    | some (.function f) => .method f (some scope) receiver
    | some (.structureDef e) => .definition e (some scope)
    | _ => missing
  | _ => (p.method? receiver n).getD missing

/-- The value of a name that the node `id` uses in the frame `frame` above the
    frames `below`. -/
def referenceValue (m : Machine) (frame : Frame) (below : List Frame) (id : NodeId) (n : Name) :
    Value :=
  let missing : Value := .exception ⟨.name n, id⟩
  let bound := m.store.scopes.lookup frame.scope
  match p.resolve n id with
  | some (.bind b) => (bound b).getD missing
  | some (.function f) => (bound f).getD (.function f (some frame.scope))
  | some (.structureDef d) => (bound d).getD (.definition d (some frame.scope))
  | some (.stream s) => (m.streamValue? s).getD (.exception ⟨.streamEmpty n, id⟩)
  | some (.typeVariable _) => missing
  | none =>
    if n = .this then ((frame :: below).findSome? Frame.this).getD missing else missing

/-- The value of the body of a primitive method.  A failure belongs to the node
    that called the method. -/
def nativeValue (scopes : Scopes) (frame : Frame) (id : NodeId) (op : NativeOp) : Value :=
  match frame.this with
  | none => .exception ⟨.function none, id⟩
  | some receiver =>
    let input := frame.definition.bind fun d => (p.inputs d).head?
    match input.bind (scopes.lookup frame.scope) with
    | none => .exception ⟨.missingValue none, id⟩
    | some v =>
      match op.apply receiver v with
      | .ok result => result
      | .error kind => .exception ⟨kind, frame.creator⟩

/-! ## Values of nodes -/

/-- What a node gives at its finish. -/
structure Finished where
  /-- The value of the node. -/
  value : Value
  /-- The frame after the values of the children were taken. -/
  frame : Frame
  /-- Whether the value is bound to the node in the scope of the frame. -/
  binds : Bool := false

/-- The value that is remembered for a node, or else the latest value. -/
def passed (prior : Option Value) (frame : Frame) (id : NodeId) : Finished :=
  match prior with
  | some v => { value := v, frame }
  | none => { value := frame.top id, frame := frame.drop 1 }

/-- The value of the node of a finishing step; `prior` is what is remembered for
    it, if its children were skipped. -/
def finish (m : Machine) (frame : Frame) (below : List Frame) (s : Step) (prior : Option Value) :
    Finished :=
  let id := s.node
  match p.node? id with
  | some (.booleanLiteral _) | some (.numberLiteral _) | some (.textLiteral _) =>
    { value := (p.literal? id).getD (.exception ⟨.unparsable, id⟩), frame }
  | some (.reference n) => { value := p.referenceValue m frame below id n, frame }
  | some (.propertyReference _ n) =>
    match prior with
    | some v => { value := v, frame }
    | none =>
      { value := p.propertyValue m.store.scopes id (frame.top id) n, frame := frame.drop 1 }
  | some (.binaryOperation ..) | some (.evaluate ..) | some (.conditional ..)
  | some (.program ..) => passed prior frame id
  | some (.block ss) =>
    match prior with
    | some v => { value := v, frame }
    | none =>
      let count := (p.arena.list ss).length
      if count = 0 then { value := .exception ⟨.emptyBlock, id⟩, frame }
      else { value := frame.top id, frame := frame.drop count }
  | some (.bind _ _ value) =>
    match prior, value with
    | some v, _ => { value := v, frame, binds := true }
    | none, some _ => { value := frame.top id, frame := frame.drop 1, binds := true }
    | none, none => { value := .exception ⟨.missingValue (p.primaryName? id), id⟩, frame }
  | some (.functionDefinition ..) =>
    { value := .functionOf id (some frame.scope) frame.this, frame, binds := true }
  | some (.structureDefinition ..) =>
    match s.kind with
    | .finish =>
      { value := .instanceOf id frame.scope, frame := frame.drop (p.statements id).length }
    | _ => { value := .definition id (some frame.scope), frame, binds := true }
  | some (.native op) => { value := p.nativeValue m.store.scopes frame id op, frame }
  | _ => { value := .exception ⟨.unparsable, id⟩, frame }

end Arbor.Program
