/-
  The machine that runs programs.

  A machine has one frame for each open evaluation, the latest first; a frame
  runs the steps of one body and keeps the values that these steps have left.
  The values of the machine are those of its frames, one after another.

  * an exception does not end a machine: the frame that raised it is marked, and
    each later step takes one frame away;
  * streams run the program again, and what the program frame computed without
    reading a stream is remembered for that.
-/
import Arbor.Place
import Arbor.Step.Compile
import Arbor.Typing.StreamDependence
import Arbor.Value.Native
import Arbor.Value.Scope

namespace Arbor

/-! ## Limits -/

/-- The number of evaluations that may be open unless another one is asked for. -/
def defaultMaxDepth : Nat := 256

/-- The limits under which a machine runs. -/
structure Limits where
  /-- The number of evaluations that may be open at once. -/
  maxDepth : Nat
  /-- The number of steps that one call may run, if it is limited. -/
  steps : Option Nat
deriving DecidableEq, Repr

instance : Inhabited Limits := ⟨⟨defaultMaxDepth, none⟩⟩

/-- Why a machine cannot do what it is asked to. -/
inductive EvalError where
  /-- Nothing runs. -/
  | notStarted
  /-- The run is over. -/
  | finished
  /-- A frame ended without a value. -/
  | valueStackUnderflow (node : NodeId)
  /-- A jump leads outside the steps of its frame. -/
  | jumpOutOfBounds (node : NodeId) (target len : Nat)
  /-- The limit of one call is reached. -/
  | stepLimit (limit : Nat)
  /-- No stream has the name. -/
  | unknownStream (name : Name)
deriving DecidableEq, Repr

/-- The wording of a machine's error. -/
def EvalError.message : EvalError → String
  | notStarted => "no evaluation is in progress"
  | finished => "the evaluation already finished"
  | valueStackUnderflow node => s!"frame for {node.display} finished without leaving a value"
  | jumpOutOfBounds node target len =>
    s!"jump at {node.display} lands at step {target} of {len}"
  | stepLimit limit => s!"step limit of {limit} reached"
  | unknownStream name => s!"no stream is shared as {name.debug}"

/-! ## Frames -/

/-- Where a frame is in its life. -/
inductive Phase where
  /-- No step was run. -/
  | opened
  /-- Steps are being run. -/
  | running
  /-- An exception was raised, and the frame is taken away next. -/
  | unwinding (e : Exception)
deriving DecidableEq, Repr

/-- One open evaluation. -/
structure Frame where
  /-- The function or structure that is evaluated; the program has none. -/
  definition : Option NodeId
  /-- The node that started the evaluation. -/
  creator : NodeId
  /-- The steps of the body. -/
  steps : Array Step
  /-- The number of the next step. -/
  pc : Nat
  /-- The scope of the evaluation. -/
  scope : ScopeId
  /-- The receiver, if the function was reached as a member. -/
  this : Option Value
  /-- The values that the steps have left, the latest first. -/
  operands : List Value
  /-- Where the frame is in its life. -/
  phase : Phase

namespace Frame

/-- The number of steps that are left. -/
def remaining (f : Frame) : Nat := f.steps.size - f.pc

/-- Whether every step was run. -/
def isDone (f : Frame) : Bool := f.steps.size ≤ f.pc

/-- The next step. -/
def next? (f : Frame) : Option Step := f.steps[f.pc]?

/-- The number of steps from the next one to the finish of a node. -/
def stepsToFinish? (f : Frame) (id : NodeId) : Option Nat :=
  (nextPlace? f.steps (· == ⟨id, .finish⟩) f.remaining f.pc).map (· - f.pc)

/-- The exception that the frame is taken away for. -/
def exception? (f : Frame) : Option Exception :=
  match f.phase with
  | .unwinding e => some e
  | _ => none

/-- Leaves a value. -/
def push (f : Frame) (v : Value) : Frame := { f with operands := v :: f.operands }

/-- The latest value, which a node needs, or the exception for none. -/
def top (f : Frame) (node : NodeId) : Value := f.operands.head?.getD (.exception ⟨.empty, node⟩)

/-- Takes the latest values away. -/
def drop (f : Frame) (count : Nat) : Frame := { f with operands := f.operands.drop count }

theorem stepsToFinish?_eq {f : Frame} (h : f.pc ≤ f.steps.size) (id : NodeId) :
    f.stepsToFinish? id = (f.steps.toList.drop f.pc).findIdx? (· == ⟨id, .finish⟩) := by
  unfold stepsToFinish? remaining
  rw [nextPlace?_eq _ _ (by omega), part, List.take_of_length_le (by simp), Option.map_map]
  simp [Function.comp_def]

end Frame

/-! ## Machines -/

/-- What one step did. -/
inductive Outcome where
  /-- A step was run. -/
  | executed (s : Step)
  /-- A frame was taken away. -/
  | unwound (creator : NodeId)
  /-- The program gave its value, which may be an exception. -/
  | completed (v : Value)

/-- Whether the program gave its value. -/
def Outcome.isCompleted : Outcome → Bool
  | completed _ => true
  | _ => false

/-- What the steps of a run read and write besides the frames. -/
structure Store where
  /-- The scopes. -/
  scopes : Scopes
  /-- Values of the program frame that do not depend on any stream. -/
  remembered : NodeMap Value
  /-- What is known about the nodes of the program. -/
  memo : Memo
deriving Inhabited

namespace Store

/-- Adds a scope. -/
def addScope (scope : Scope) : Store → ScopeId × Store
  | ⟨scopes, remembered, memo⟩ =>
    let (id, scopes) := scopes.add scope
    (id, ⟨scopes, remembered, memo⟩)

/-- Binds the value of a definition in a scope. -/
def define (scope : ScopeId) (definition : NodeId) (v : Value) : Store → Store
  | ⟨scopes, remembered, memo⟩ => ⟨scopes.define scope definition v, remembered, memo⟩

/-- Remembers the value of a node, unless it depends on a stream. -/
def remember (p : Program) (id : NodeId) (v : Value) : Store → Store
  | ⟨scopes, remembered, memo⟩ =>
    let (depends, memo) := (p.dependsOnStream id).run memo
    ⟨scopes, if depends then remembered else remembered.insert id v, memo⟩

end Store

/-- A machine for one program. -/
structure Machine where
  /-- The open evaluations, the latest first. -/
  frames : List Frame
  /-- The scopes and what is remembered. -/
  store : Store
  /-- Whether remembered values are used. -/
  reevaluating : Bool
  /-- The latest value of each stream. -/
  streams : Table StreamId Value
  /-- Inputs that arrived during a run, in order. -/
  pending : List (StreamId × Value)
  /-- The result of the last run, if none is open. -/
  result : Option Value
  /-- The number of completed runs. -/
  runs : Nat
  /-- The number of steps that were run. -/
  stepsTaken : Nat
deriving Inhabited

namespace Machine

/-- A machine that has not run anything; `memo` is what is known already. -/
def initial (memo : Memo) : Machine where
  frames := []
  store := ⟨.empty, .empty, memo⟩
  reevaluating := false
  streams := .empty
  pending := []
  result := none
  runs := 0
  stepsTaken := 0

/-- The number of open evaluations. -/
def depth (m : Machine) : Nat := m.frames.length

/-- Whether a run is over and gave a result. -/
def isFinished (m : Machine) : Bool := m.frames.isEmpty && m.result.isSome

/-- The values of all frames, the earliest first. -/
def values (m : Machine) : List Value := (m.frames.flatMap Frame.operands).reverse

/-- The step that is run next. -/
def currentStep? (m : Machine) : Option Step := m.frames.head?.bind Frame.next?

/-- Changes the store. -/
def mapStore (f : Store → Store) : Machine → Machine
  | ⟨frames, store, reevaluating, streams, pending, result, runs, stepsTaken⟩ =>
    ⟨frames, f store, reevaluating, streams, pending, result, runs, stepsTaken⟩

/-- Adds a scope. -/
def addScope (scope : Scope) : Machine → ScopeId × Machine
  | ⟨frames, store, reevaluating, streams, pending, result, runs, stepsTaken⟩ =>
    let (id, store) := store.addScope scope
    (id, ⟨frames, store, reevaluating, streams, pending, result, runs, stepsTaken⟩)

/-- Opens the frame of the program, and forgets what an earlier run left open. -/
def beginRun (p : Program) (reevaluating : Bool) (m : Machine) : Machine :=
  let (scope, m) := m.addScope ⟨.empty, none⟩
  { m with
    frames := [{
      definition := none
      creator := p.root
      steps := (p.compile p.root).toArray
      pc := 0
      scope := scope
      this := none
      operands := []
      phase := .opened }]
    reevaluating := reevaluating
    result := none }

/-- Begins a fresh run, with nothing remembered. -/
def start (p : Program) (m : Machine) : Machine :=
  { m with store := { m.store with remembered := .empty } }.beginRun p false

/-- Runs the program again with what is remembered. -/
def reevaluate (p : Program) (m : Machine) : Machine := m.beginRun p true

/-- The latest value of a stream. -/
def streamValue? (m : Machine) (id : StreamId) : Option Value := m.streams.get? id

/-- Takes a new value of a stream: it runs the program again, or waits until the
    run that is open is over. -/
def streamInput (p : Program) (n : Name) (v : Value) (m : Machine) : Except EvalError Machine :=
  match p.streamNamed? n with
  | none => .error (.unknownStream n)
  | some id =>
    if m.frames.isEmpty then .ok ({ m with streams := m.streams.insert id v }.reevaluate p)
    else .ok { m with pending := m.pending ++ [(id, v)] }

end Machine

end Arbor
