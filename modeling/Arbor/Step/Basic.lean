/-
  Steps: what the evaluator does one at a time.

  A step belongs to the node that it came from and holds no state.
-/
import Arbor.Node.Id

namespace Arbor

/-- What a step does. -/
inductive StepKind where
  /-- Opens a node. -/
  | start
  /-- The node gives its value. -/
  | finish
  /-- Both in one, for nodes without compiled children. -/
  | startFinish
  /-- Skips steps if the boolean on top of the values is `jumpWhen`; the boolean
      is taken away or stays. -/
  | jumpIf (offset : Nat) (consume jumpWhen : Bool)
  /-- Skips steps. -/
  | jump (offset : Nat)
  /-- Calls what the node refers to with the values on top. -/
  | startEvaluation
deriving DecidableEq, Repr

/-- One step. -/
structure Step where
  /-- The node that the step came from. -/
  node : NodeId
  /-- What it does. -/
  kind : StepKind
deriving DecidableEq, Repr

namespace Step

/-- Whether the node gives its value at this step. -/
def finishes (s : Step) : Bool :=
  match s.kind with
  | .finish | .startFinish => true
  | _ => false

/-- A step as people read it. -/
def display (s : Step) : String :=
  let node := s.node.display
  match s.kind with
  | .start => s!"start {node}"
  | .finish => s!"finish {node}"
  | .startFinish => s!"start+finish {node}"
  | .jumpIf offset consume jumpWhen =>
    (if consume then "pop" else "peek") ++ s!", jump {offset} if {jumpWhen} {node}"
  | .jump offset => s!"jump {offset} {node}"
  | .startEvaluation => s!"evaluate {node}"

end Step

end Arbor
