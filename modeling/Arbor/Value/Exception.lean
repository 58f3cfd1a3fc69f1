/-
  Exceptions: what goes wrong while a program runs.

  An exception is raised at a node.  Its kind gives its code, and its words are
  those of the code unless a name makes them clearer.
-/
import Arbor.Diagnostic.Basic
import Arbor.Program.Basic

namespace Arbor

/-- What went wrong. -/
inductive ExceptionKind where
  /-- There is no function to call. -/
  | function (name : Option Name)
  /-- A name has no value. -/
  | name (name : Name)
  /-- The node makes no sense. -/
  | unparsable
  /-- Too many evaluations are open. -/
  | full
  /-- A value was needed and there was none. -/
  | empty
  /-- A number was divided by zero. -/
  | divisionByZero
  /-- A condition or operand is not boolean. -/
  | expectedBoolean
  /-- An input was reached without an argument or a default. -/
  | missingValue (name : Option Name)
  /-- A stream has no value yet. -/
  | streamEmpty (name : Name)
  /-- A block has no statements. -/
  | emptyBlock
deriving DecidableEq, Repr

/-- Something that went wrong at a node. -/
structure Exception where
  /-- What went wrong. -/
  kind : ExceptionKind
  /-- Where. -/
  node : NodeId
deriving DecidableEq, Repr

namespace ExceptionKind

/-- The code of an exception. -/
def code : ExceptionKind → ErrorCode
  | function _ => .e6001
  | name _ => .e6002
  | unparsable => .e6003
  | full => .e6004
  | empty => .e6005
  | divisionByZero => .e6006
  | expectedBoolean => .e6007
  | missingValue _ => .e6008
  | streamEmpty _ => .e6009
  | emptyBlock => .e6010

/-- A name in the technical form of a kind. -/
def debugName (kind name : String) : String :=
  String.join [kind, " \x7b name: ", name, " \x7d"]

/-- A name that may be missing, in the technical form of a kind. -/
def debugOption : Option Name → String
  | some n => s!"Some({n.debug})"
  | none => "None"

/-- The technical form of a kind. -/
def debug : ExceptionKind → String
  | function n => debugName "Function" (debugOption n)
  | name n => debugName "Name" n.debug
  | unparsable => "Unparsable"
  | full => "Evaluation(Full)"
  | empty => "Evaluation(Empty)"
  | divisionByZero => "DivisionByZero"
  | expectedBoolean => "ExpectedBoolean"
  | missingValue n => debugName "MissingValue" (debugOption n)
  | streamEmpty n => debugName "StreamEmpty" n.debug
  | emptyBlock => "EmptyBlock"

end ExceptionKind

namespace Exception

/-- The code of an exception. -/
def code (e : Exception) : ErrorCode := e.kind.code

/-- An exception in words. -/
def describe (p : Program) (e : Exception) : String :=
  match e.kind with
  | .function (some n) => s!"no function named '{p.textOf n}'"
  | .name n => s!"'{p.textOf n}' has no value"
  | .missingValue (some n) => s!"input '{p.textOf n}' has no value"
  | .streamEmpty n => s!"stream '{p.textOf n}' has no value yet"
  | _ => e.code.summary

/-- An exception as a diagnostic at its node. -/
def toDiagnostic (p : Program) (e : Exception) : Diagnostic where
  code := e.code
  severity := .error
  message := e.describe p
  labels := [⟨e.node, p.arena.kindName e.node, true⟩]
  notes := []

/-- The technical form of an exception. -/
def debug (e : Exception) : String :=
  String.join ["Exception \x7b kind: ", e.kind.debug, ", node: ", e.node.debug, " \x7d"]

end Exception

end Arbor
