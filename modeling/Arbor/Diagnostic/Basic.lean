/-
  Diagnostics: what is told about a conflict or an exception.

  Programs carry no positions in a text, so the labels of a diagnostic point at
  nodes.
-/
import Arbor.Diagnostic.Code
import Arbor.Node.Id

namespace Arbor

/-- How serious a diagnostic is. -/
inductive Severity where
  | error
  | warning
  | note
deriving DecidableEq, Repr

/-- The word for a severity. -/
def Severity.text : Severity → String
  | error => "error"
  | warning => "warning"
  | note => "note"

/-- A node of a diagnostic and what is said about it. -/
structure Label where
  /-- The node. -/
  node : NodeId
  /-- What is said. -/
  message : String
  /-- Whether the node is at fault; otherwise it gives context. -/
  isPrimary : Bool
deriving DecidableEq, Repr

/-- What is told about one problem. -/
structure Diagnostic where
  /-- The code of the problem. -/
  code : ErrorCode
  /-- How serious it is. -/
  severity : Severity
  /-- What is wrong. -/
  message : String
  /-- The nodes concerned. -/
  labels : List Label
  /-- Further remarks. -/
  notes : List String
deriving DecidableEq, Repr

namespace Diagnostic

/-- The severity that follows from a code. -/
def severityOf (c : ErrorCode) : Severity := if c.isWarning then .warning else .error

/-- Whether the diagnostic is an error. -/
def isError (d : Diagnostic) : Bool := d.severity == .error

/-- The node of the first primary label. -/
def primaryNode? (d : Diagnostic) : Option NodeId := (d.labels.find? Label.isPrimary).map Label.node

/-- The diagnostic in one line. -/
def display (d : Diagnostic) : String := s!"{d.severity.text}[{d.code.text}]: {d.message}"

end Diagnostic

end Arbor
