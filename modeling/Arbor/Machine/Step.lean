/-
  One step of the machine.

  A step is executed in the top frame and asks for an action: to go on, to jump,
  to open a frame or to raise an exception.  A frame is complete with its last
  step; its latest value goes to the frame below, and the value of the program
  frame is the result of the run.  A frame that is unwinding is taken away, and
  its exception goes to the frame below.

  When a run is over and inputs wait, the first of them starts the next run.
-/
import Arbor.Machine.Call

namespace Arbor

namespace Program

variable (p : Program)

/-! ## Executing a step -/

/-- The number of steps from the start of a node to its finish, after which the
    frame goes on when the value of the node is remembered. -/
def skipAction (m : Machine) (frame : Frame) (below : List Frame) (id : NodeId) : Action :=
  if m.reevaluating && below.isEmpty && m.store.remembered.contains id then
    match frame.stepsToFinish? id with
    | some count => .skip count
    | none => .proceed
  else .proceed

/-- The value that is remembered for a node whose children were skipped. -/
def prior? (m : Machine) (below : List Frame) (s : Step) : Option Value :=
  if m.reevaluating && below.isEmpty && s.kind == .finish then m.store.remembered.get? s.node
  else none

/-- Leaves the value of a node, binds it if the node asks for that, and remembers
    it if it cannot change; an exception is raised instead. -/
def leave (m : Machine) (below : List Frame) (s : Step) (result : Finished) :
    Frame × Machine × Action :=
  match result.value with
  | .exception e => (result.frame, m, .raise e)
  | v =>
    let keep := fun store : Store =>
      let store := if result.binds then store.define result.frame.scope s.node v else store
      if below.isEmpty && s.kind == .finish then store.remember p s.node v else store
    (result.frame.push v, m.mapStore keep, .proceed)

/-- Executes a step in the frame `frame` above the frames `below`. -/
def execute (m : Machine) (frame : Frame) (below : List Frame) (s : Step) :
    Frame × Machine × Action :=
  match s.kind with
  | .start => (frame, m, skipAction m frame below s.node)
  | .finish | .startFinish => p.leave m below s (p.finish m frame below s (prior? m below s))
  | .jumpIf offset consume jumpWhen =>
    let next := if consume then frame.drop 1 else frame
    match frame.operands.head? with
    | some (.bool b) => (next, m, if b = jumpWhen then .jump offset else .proceed)
    | some _ => (next, m, .raise ⟨.expectedBoolean, s.node⟩)
    | none => (next, m, .raise ⟨.empty, s.node⟩)
  | .jump offset => (frame, m, .jump offset)
  | .startEvaluation =>
    let (frame, action) := p.startEvaluation frame s.node
    (frame, m, action)

end Program

namespace Machine

variable (p : Program)

/-! ## Ends of frames -/

/-- Ends a run with its result; the first input that waits starts the next. -/
def endRun (v : Value) (m : Machine) : Machine :=
  let m := { m with frames := [], result := some v, runs := m.runs + 1 }
  match m.pending with
  | [] => m
  | (id, input) :: pending =>
    { m with pending := pending, streams := m.streams.insert id input }.reevaluate p

/-- What a machine did, or why it could not. -/
abbrev Result := Except EvalError Outcome × Machine

/-- Completes the frame `frame` above the frames `below`. -/
def complete (m : Machine) (frame : Frame) (below : List Frame) (s : Step) : Result :=
  match frame.operands, below with
  | [], _ => (.error (.valueStackUnderflow frame.creator), { m with frames := below })
  | v :: _, [] => (.ok (.completed v), m.endRun p v)
  | v :: _, caller :: rest =>
    (.ok (.executed s), { m with frames := caller.push v :: rest })

/-- Takes away a frame that is unwinding. -/
def unwind (m : Machine) (frame : Frame) (below : List Frame) (e : Exception) : Result :=
  match below with
  | [] => (.ok (.completed (.exception e)), m.endRun p (.exception e))
  | caller :: rest =>
    (.ok (.unwound frame.creator),
      { m with frames := { caller with phase := .unwinding e } :: rest })

/-! ## Steps -/

/-- Marks the frame that raises an exception. -/
def raise (m : Machine) (frame : Frame) (below : List Frame) (s : Step) (e : Exception) : Result :=
  (.ok (.executed s), { m with frames := { frame with phase := .unwinding e } :: below })

/-- Goes on in a frame, unless it is done. -/
def settle (m : Machine) (frame : Frame) (below : List Frame) (s : Step) : Result :=
  if frame.isDone then m.complete p frame below s
  else (.ok (.executed s), { m with frames := frame :: below })

/-- Opens a frame above the others, within the limit on open evaluations. -/
def enter (limits : Limits) (m : Machine) (frame : Frame) (below : List Frame) (s : Step)
    (c : Call) : Result :=
  if limits.maxDepth ≤ below.length + 1 then m.raise frame below s ⟨.full, c.creator⟩
  else
    match p.callScope c with
    | .error e => m.raise frame below s e
    | .ok scope =>
      let (id, m) := m.addScope scope
      (.ok (.executed s), { m with frames := p.openFrame c id :: frame :: below })

/-- Does what a step asks for. -/
def act (limits : Limits) (m : Machine) (frame : Frame) (below : List Frame) (s : Step) :
    Action → Result
  | .proceed => m.settle p frame below s
  | .skip count => m.settle p { frame with pc := frame.pc + count } below s
  | .jump offset =>
    let target := frame.pc + offset
    if frame.steps.size < target then
      (.error (.jumpOutOfBounds s.node target frame.steps.size),
        { m with frames := frame :: below })
    else m.settle p { frame with pc := target } below s
  | .raise e => m.raise frame below s e
  | .call c => m.enter p limits frame below s c

/-- Runs one step, or takes one frame away. -/
def step (limits : Limits) (m : Machine) : Result :=
  match m.frames with
  | [] => (.error (if m.result.isSome then .finished else .notStarted), m)
  | frame :: below =>
    match frame.phase with
    | .unwinding e => m.unwind p frame below e
    | _ =>
      match frame.next? with
      | none =>
        (.error (.valueStackUnderflow frame.creator),
          { m with frames := { frame with phase := .running } :: below })
      | some s =>
        let running := { frame with phase := .running, pc := frame.pc + 1 }
        let (frame, m, action) := p.execute m running below s
        { m with stepsTaken := m.stepsTaken + 1 }.act p limits frame below s action

end Machine

end Arbor
