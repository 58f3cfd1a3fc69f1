/-
  Sessions: one program and everything that is needed to look at it and run it.

  A session keeps the nodes and names of every version of its program, the basis
  and the shares, and the root of the current version.  Every question reads the
  current version anew, so an edit is seen by the next question.

  * `build` and `edit` make a new version current;
  * `check`, `diagnostics` and `compile` look at it, `evaluator` and `run` run
    it, unless it has fatal conflicts that are not allowed;
  * an `Evaluator` is a machine together with the program that it runs.
-/
import Arbor.Conflict.Check
import Arbor.Conflict.English
import Arbor.Machine.Run
import Arbor.Settings
import Arbor.Arena.Edit
import Arbor.Value.Describe

namespace Arbor

/-- Why a session cannot do what it is asked to. -/
inductive SessionError where
  /-- There is no program. -/
  | noProgram
  /-- The program has fatal conflicts. -/
  | fatalConflicts (count : Nat)
  /-- An edit failed. -/
  | edit (e : EditError)
  /-- A run failed. -/
  | eval (e : EvalError)
deriving DecidableEq, Repr

/-- The wording of a session's error. -/
def SessionError.message : SessionError → String
  | noProgram => "no program has been built"
  | fatalConflicts count =>
    s!"the program has {count} fatal conflict(s); set QUILL_ALLOW_CONFLICTS to run it anyway"
  | edit e => e.message
  | eval e => e.message

/-- A program under work. -/
structure Session where
  /-- The nodes and names of all versions. -/
  forest : Forest
  /-- The primitive methods. -/
  basis : Basis
  /-- The shares. -/
  shares : Shares
  /-- The root of the current version. -/
  root : Option NodeId
  /-- How the program is checked and run. -/
  settings : Settings

/-- A program with a machine for it. -/
structure Evaluator where
  /-- The program. -/
  program : Program
  /-- The limits of the machine. -/
  limits : Limits
  /-- The machine. -/
  machine : Machine

namespace Evaluator

/-- Runs one step. -/
def step (e : Evaluator) : Except EvalError Outcome × Evaluator :=
  let (result, m) := e.machine.step e.program e.limits
  (result, { e with machine := m })

/-- Runs to the end. -/
def run (e : Evaluator) : Except EvalError Value × Evaluator :=
  let (result, m) := e.machine.run e.program e.limits
  (result, { e with machine := m })

/-- Takes a new value of a stream. -/
def streamInput (e : Evaluator) (n : Name) (v : Value) : Except EvalError Evaluator := do
  return { e with machine := ← e.machine.streamInput e.program n v }

/-- A value of the machine in words. -/
def describe (e : Evaluator) (v : Value) : String := v.describe e.program e.machine.store.scopes

/-- The name of a text, which is new to the program if it is new at all. -/
def intern (e : Evaluator) (text : String) : Name × Evaluator :=
  let (n, interner) := e.program.interner.intern text
  (n, { e with program := { e.program with interner := interner } })

end Evaluator

namespace Session

/-- A session without a program. -/
def ofSettings (settings : Settings) : Session :=
  let (basis, forest) := Forest.withBasis
  ⟨forest, basis, .empty, none, settings⟩

/-! ## Versions -/

/-- Makes a node the root of the current version. -/
def setRoot (s : Session) (root : NodeId) : Session := { s with root := some root }

/-- Adds nodes without changing the current version. -/
def add (s : Session) (nodes : Build NodeId) : Except EditError (NodeId × Session) :=
  match nodes.run s.forest with
  | .ok (id, forest) => .ok (id, { s with forest := forest })
  | .error e => .error e

/-- Builds a program, which becomes the current version. -/
def build (s : Session) (program : Build NodeId) : Except EditError (NodeId × Session) :=
  match s.add program with
  | .ok (id, s) => .ok (id, s.setRoot id)
  | .error e => .error e

/-- The name of a text. -/
def intern (s : Session) (text : String) : Name × Session :=
  let (n, interner) := s.forest.interner.intern text
  (n, { s with forest := { s.forest with interner := interner } })

/-- Shares a stream. -/
def shareStream (s : Session) (name : String) (type : Ty) : StreamId × Session :=
  let (n, s) := s.intern name
  let (id, shares) := s.shares.shareStream n type
  (id, { s with shares := shares })

/-- Shares a structure. -/
def shareStructure (s : Session) (name : String) (definition : NodeId) : Session :=
  let (n, s) := s.intern name
  { s with shares := s.shares.shareStructure n definition }

/-- Replaces a node of the current version, or removes it.  A failed edit leaves
    the current version as it is. -/
def edit (s : Session) (target : NodeId) (replacement : Option NodeId) :
    Except SessionError NodeId × Session :=
  match s.root with
  | none => (.error .noProgram, s)
  | some root =>
    match (Arena.replace root target replacement).run.run s.forest.arena with
    | (.ok edited, arena) =>
      (.ok edited, { s with forest := { s.forest with arena := arena }, root := some edited })
    | (.error e, arena) =>
      (.error (.edit e), { s with forest := { s.forest with arena := arena } })

/-! ## Questions -/

/-- The current version. -/
def program (s : Session) : Except SessionError Program :=
  match s.root with
  | some root => .ok (.ofRoot s.forest s.basis (some s.shares) root)
  | none => .error .noProgram

/-- The conflicts of the current version. -/
def check (s : Session) : Except SessionError (List Conflict) := do
  let p ← s.program
  return (p.check.run .empty).1

/-- The place of each node in the pre-order of a program; a node that is listed
    several times has its last place. -/
def positions (p : Program) : NodeMap Nat :=
  p.tree.nodes.zipIdx.foldl (fun m (id, k) => m.insert id k) .empty

/-- The place of the first primary node of a conflict; a node outside the program
    comes after all others. -/
def positionOf (positions : NodeMap Nat) (c : Conflict) : Nat :=
  (c.primary.head?.bind positions.get?).getD Decimal.maxWord

/-- Conflicts as diagnostics, within the limits of a queue and in program order. -/
def queueConflicts (config : QueueConfig) (p : Program) (conflicts : List Conflict) : Queue :=
  let places := positions p
  conflicts.foldl (fun q c => (q.add (c.toDiagnostic .english p) (positionOf places c)).2)
    (.ofConfig config)

/-- The conflicts of the current version as diagnostics in English. -/
def diagnostics (s : Session) : Except SessionError (List Diagnostic) := do
  let p ← s.program
  let conflicts ← s.check
  return (queueConflicts s.settings.queueConfig p conflicts).flush.1

/-- The steps of the current version. -/
def compile (s : Session) : Except SessionError (List Step) := do
  let p ← s.program
  return p.compile p.root

/-! ## Runs -/

/-- A machine for the current version, unless it has fatal conflicts that are not
    allowed.  What the check has found out is known to the machine. -/
def evaluator (s : Session) : Except SessionError Evaluator := do
  let p ← s.program
  let (conflicts, memo) := p.check.run .empty
  let count := conflicts.countP Conflict.isFatal
  if 0 < count ∧ !s.settings.allowConflicts then
    throw (.fatalConflicts count)
  return ⟨p, s.settings.limits, .initial memo⟩

/-- Runs the current version to its end; the machine shows the value. -/
def run (s : Session) : Except SessionError (Value × Evaluator) := do
  match (← s.evaluator).run with
  | (.ok v, e) => return (v, e)
  | (.error error, _) => throw (.eval error)

end Session

end Arbor
