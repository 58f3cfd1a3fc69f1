/-
  Settings.

  The settings have defaults for interactive use, and each of them can be given
  by a variable of the environment.  The first variable with a value that makes
  no sense is an error.
-/
import Arbor.Decimal.Word
import Arbor.Diagnostic.Queue
import Arbor.Diagnostic.Terminal
import Arbor.Machine.Basic
import Arbor.Text.Quoted

namespace Arbor

/-- How programs are checked, run and shown. -/
structure Settings where
  /-- The number of evaluations that may be open at once. -/
  maxDepth : Nat
  /-- The number of steps of one run, if it is limited. -/
  stepLimit : Option Nat
  /-- The number of errors that are reported; 0 means all. -/
  errorLimit : Nat
  /-- Whether programs with fatal conflicts are run. -/
  allowConflicts : Bool
  /-- When output is colored. -/
  color : ColorMode
deriving DecidableEq, Repr

/-- A variable whose value makes no sense. -/
structure SettingsError where
  /-- The variable. -/
  variable_ : String
  /-- Its value. -/
  value : String
  /-- What the value should be. -/
  expected : String
deriving DecidableEq, Repr

/-- The wording of a settings error. -/
def SettingsError.message (e : SettingsError) : String :=
  s!"{e.variable_}={Text.quoted e.value} is not a valid {e.expected}"

namespace Settings

/-- The settings when nothing is given. -/
def standard : Settings := ⟨defaultMaxDepth, none, QueueConfig.standard.errorLimit, false, .auto⟩

instance : Inhabited Settings := ⟨standard⟩

/-- Reads a number, with blanks around it. -/
def readWord? (s : String) : Option Nat := Decimal.word? (Text.trimmed s)

/-- Reads a truth value in either case, with blanks around it; no word at all is
    false. -/
def readBool? (s : String) : Option Bool :=
  let word := Text.asciiLower (Text.trimmed s)
  if word ∈ ["1", "true", "yes", "on"] then some true
  else if word ∈ ["0", "false", "no", "off", ""] then some false
  else none

/-- Changes the settings by the value of one variable, if it has one. -/
def apply {α : Type} (lookup : String → Option String) (name expected : String)
    (read : String → Option α) (put : Settings → α → Settings) (s : Settings) :
    Except SettingsError Settings :=
  match lookup name with
  | none => .ok s
  | some value =>
    match read value with
    | some a => .ok (put s a)
    | none => .error ⟨name, value, expected⟩

/-- The settings that the variables of an environment give. -/
def ofLookup (lookup : String → Option String) : Except SettingsError Settings := do
  let s ← apply lookup "QUILL_MAX_DEPTH" "positive integer"
    (fun v => (readWord? v).filter (0 < ·)) (fun s n => { s with maxDepth := n }) standard
  let s ← apply lookup "QUILL_STEP_LIMIT" "step count"
    readWord? (fun s n => { s with stepLimit := if 0 < n then some n else none }) s
  let s ← apply lookup "QUILL_ERROR_LIMIT" "error count"
    readWord? (fun s n => { s with errorLimit := n }) s
  let s ← apply lookup "QUILL_ALLOW_CONFLICTS" "boolean"
    readBool? (fun s b => { s with allowConflicts := b }) s
  apply lookup "QUILL_COLOR" "color mode"
    (fun v => (ColorMode.ofText v).toOption) (fun s c => { s with color := c }) s

/-- The limits of a machine. -/
def limits (s : Settings) : Limits := ⟨s.maxDepth, s.stepLimit⟩

/-- What a queue of diagnostics accepts. -/
def queueConfig (s : Settings) : QueueConfig :=
  { QueueConfig.standard with errorLimit := s.errorLimit }

end Settings

end Arbor
