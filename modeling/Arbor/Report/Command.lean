/-
  Commands: reports about demos and codes.

  A command writes its report to a sink.  A line that cannot be written ends the
  command; diagnostics that cannot be written are let go.

  * `list` and `demo` show and run demos, `step` runs one step by step, `check`
    reports conflicts, and `explain` explains a code.
-/
import Arbor.Demos
import Arbor.Report.Sink

namespace Arbor

/-- Why a command fails. -/
inductive CommandError where
  /-- There is no such demo. -/
  | unknownDemo (name : String)
  /-- There is no such code. -/
  | unknownCode (code : String)
  /-- The session of a demo failed. -/
  | session (e : SessionError)
  /-- The report does not fit in its sink. -/
  | full
deriving DecidableEq, Repr

/-- The wording of a command's error. -/
def CommandError.message : CommandError → String
  | unknownDemo name => s!"no demo named `{name}`; run `quill demo` for the list"
  | unknownCode code => s!"unknown error code `{code}`"
  | session e => e.message
  | full => "cannot write output: full"

/-- A command writes to a sink and may fail. -/
abbrev Report := ExceptT CommandError (StateM Sink)

namespace Report

/-! ## Writing -/

/-- Writes a line, which ends the command if it does not fit. -/
def line (text : String) : Report Unit := do
  let (fits, sink) := (← get).write (text ++ "\n")
  set sink
  if !fits then
    throw .full

/-- Writes a text as far as it fits. -/
def offer (text : String) : Report Unit := modify fun sink => (sink.write text).2

/-- Writes diagnostics as far as they fit.  The sink is not a terminal. -/
def diagnostics (settings : Settings) (ds : List Diagnostic) : Report Unit :=
  offer (Terminal.renderAll (settings.color.usesColors false) ds)

/-- The result of something that a session does. -/
def ofSession {α : Type} (result : Except SessionError α) : Report α :=
  match result with
  | .ok a => return a
  | .error e => throw (.session e)

/-- The demo with a name. -/
def findDemo (name : String) : Report Demo :=
  match Demo.find? name with
  | some d => return d
  | none => throw (.unknownDemo name)

/-- A text with blanks after it up to a width. -/
def padRight (width : Nat) (s : String) : String :=
  s ++ String.ofList (List.replicate (width - s.length) ' ')

/-- A text with blanks before it up to a width. -/
def padLeft (width : Nat) (s : String) : String :=
  String.ofList (List.replicate (width - s.length) ' ') ++ s

/-! ## Demos -/

/-- Lists the demos with the first lines of their texts. -/
def list : Report Unit := do
  line "Demos:"
  for d in Demo.all do
    line ("  " ++ padRight 15 d.name ++ " " ++ d.lines.headD "")

/-- One value of a program and the diagnostic for it, if it is an exception. -/
structure Shown where
  /-- Which run gave the value. -/
  label : String
  /-- The value in words. -/
  value : String
  /-- What is told about an exception. -/
  diagnostic : Option Diagnostic

/-- Runs to the end, and shows the value. -/
def shown (e : Evaluator) (label : String) : Except SessionError (Shown × Evaluator) :=
  match e.run with
  | (.ok v, e) =>
    .ok (⟨label, e.describe v, v.exception?.map (Exception.toDiagnostic e.program)⟩, e)
  | (.error error, _) => .error (.eval error)

/-- Gives the stream `time` values, and runs the program after each of them. -/
def runInputs (time : Name) : Evaluator → List UInt64 → Except SessionError (List Shown)
  | _, [] => .ok []
  | e, input :: inputs => do
    let e ← (e.streamInput time (.ofBits input)).mapError SessionError.eval
    let (first, e) ← shown e s!"time = {Decimal.numberText input}"
    return first :: (← runInputs time e inputs)

/-- Everything that a demo gives: the value of its first run, and one for each of
    its inputs. -/
def outcomes (d : Demo) (session : Session) : Except SessionError (List Shown) := do
  let (time, e) := (← session.evaluator).intern "time"
  let (first, e) ← shown e d.name
  return first :: (← runInputs time e d.inputs)

/-- Runs a demo, and once more for each of its inputs. -/
def demo (name : String) (settings : Settings) : Report Unit := do
  let d ← findDemo name
  let session := d.load settings
  for text in d.lines do
    line s!"  {Text.trimmed text}"
  line ""
  diagnostics settings (← ofSession session.diagnostics)
  for o in ← ofSession (outcomes d session) do
    diagnostics settings o.diagnostic.toList
    line s!"{o.label} => {o.value}"

/-! ## Steps -/

/-- The line of what a step did at a depth, with the values after it. -/
def outcomeLine (p : Program) (m : Machine) (depth : Nat) (o : Outcome) : String :=
  let count := padLeft 5 (toString m.stepsTaken) ++ "  "
  let indent := String.join (List.replicate (depth - 1) "  ")
  match o with
  | .executed s =>
    let values := m.values.map (Value.describe p m.store.scopes)
    count ++ padRight 32 (indent ++ s.display) ++ " [" ++ ", ".intercalate values ++ "]"
  | .unwound creator => count ++ indent ++ s!"unwind evaluation of {creator.display}"
  | .completed v => "=> " ++ v.describe p m.store.scopes

/-- The lines of a run, step by step up to a limit, and the error that ends it if
    one does. -/
def trace (p : Program) (limits : Limits) (m : Machine) : List String × Option EvalError :=
  match _h : m.step p limits with
  | (.error e, _) => ([], some e)
  | (.ok o, m') =>
    let text := outcomeLine p m' m.depth o
    let taken := m'.stepsTaken
    if o.isCompleted then ([text], none)
    else if limits.steps.any (· ≤ taken) then
      ([text, s!"stopped after {taken} steps"], none)
    else
      let (rest, e) := trace p limits m'
      (text :: rest, e)
termination_by (m.pending.length, Machine.work p limits m.frames)
decreasing_by
  rcases Machine.step_decreases p limits _h with h | ⟨he, hw⟩
  · exact Prod.Lex.left _ _ h
  · rw [he]; exact Prod.Lex.right _ hw

/-- Runs a demo and shows every step with the values after it. -/
def step (name : String) (settings : Settings) : Report Unit := do
  let d ← findDemo name
  let e ← ofSession (d.load settings).evaluator
  let (lines, error) := trace e.program e.limits (e.machine.start e.program)
  for text in lines do
    line text
  match error with
  | some error => throw (.session (.eval error))
  | none => return

/-! ## Conflicts and codes -/

/-- Reports the conflicts of a demo, and says whether one of them is an error. -/
def check (name : String) (settings : Settings) : Report Bool := do
  let d ← findDemo name
  let ds ← ofSession (d.load settings).diagnostics
  let errors := ds.countP Diagnostic.isError
  diagnostics settings ds
  offer (Terminal.summary errors (ds.length - errors))
  if ds.isEmpty then
    line s!"{name}: no conflicts"
  return 0 < errors

/-- Explains a code. -/
def explain (text : String) : Report Unit := do
  match ErrorCode.ofText? text with
  | none => throw (.unknownCode text)
  | some code =>
    let category :=
      if code.isWarning then "advisory conflict, reported but never blocks a run"
      else if code.isConflict then "conflict, found before the program runs"
      else "exception, raised while the program runs"
    line s!"{code.text}: {code.summary}"
    line s!"  ({category})"

end Report

end Arbor
