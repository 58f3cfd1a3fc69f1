/-
  The queue that diagnostics wait in before they are shown.

  The queue refuses errors beyond a limit, and, if it is told to, diagnostics
  whose code and first primary node it has already; it gives out what it accepted
  in the order of positions in the program.  It counts what it accepts, and keeps
  the keys of it, as it goes.
-/
import Arbor.Diagnostic.Basic

namespace Arbor

/-- What a queue accepts. -/
structure QueueConfig where
  /-- The number of errors that are accepted; 0 means all. -/
  errorLimit : Nat
  /-- Whether a second diagnostic with the same code and node is refused. -/
  deduplicate : Bool
deriving DecidableEq, Repr

namespace QueueConfig

/-- At most 50 errors, and nothing twice. -/
def standard : QueueConfig := ⟨50, true⟩

/-- Everything is accepted. -/
def unlimited : QueueConfig := ⟨0, false⟩

instance : Inhabited QueueConfig := ⟨standard⟩

end QueueConfig

/-- What a queue knows a diagnostic by: its code and its first primary node. -/
def Diagnostic.key (d : Diagnostic) : ErrorCode × Option NodeId := (d.code, d.primaryNode?)

/-- A diagnostic with its position in the program. -/
structure Queued where
  /-- The diagnostic. -/
  diagnostic : Diagnostic
  /-- The place of its node in the pre-order of the program. -/
  position : Nat
deriving DecidableEq, Repr

/-- Diagnostics that wait to be shown. -/
structure Queue where
  /-- What is accepted. -/
  config : QueueConfig
  /-- What was accepted, in order. -/
  waiting : List Queued
  /-- The keys of what was accepted, if repetitions are refused. -/
  known : List (ErrorCode × Option NodeId)
  /-- The number of accepted errors. -/
  errorCount : Nat
  /-- The number of accepted diagnostics that are not errors. -/
  warningCount : Nat
deriving DecidableEq, Repr

namespace Queue

/-- A queue without diagnostics. -/
def ofConfig (config : QueueConfig) : Queue := ⟨config, [], [], 0, 0⟩

/-- The diagnostics in the order in which they were accepted. -/
def diagnostics (q : Queue) : List Diagnostic := q.waiting.map Queued.diagnostic

/-- Whether no more errors are accepted. -/
def limitReached (q : Queue) : Bool :=
  0 < q.config.errorLimit && q.config.errorLimit ≤ q.errorCount

/-- Whether an error was accepted. -/
def hasErrors (q : Queue) : Bool := 0 < q.errorCount

/-- The queue with one more diagnostic. -/
def push (q : Queue) (d : Diagnostic) (position : Nat) : Queue where
  config := q.config
  waiting := q.waiting ++ [⟨d, position⟩]
  known := if q.config.deduplicate then d.key :: q.known else q.known
  errorCount := if d.isError then q.errorCount + 1 else q.errorCount
  warningCount := if d.isError then q.warningCount else q.warningCount + 1

/-- Accepts a diagnostic at a position, or refuses it.  An error beyond the limit
    is refused before its key is looked at, and leaves no key. -/
def add (q : Queue) (d : Diagnostic) (position : Nat) : Bool × Queue :=
  if d.isError && q.limitReached then (false, q)
  else if q.config.deduplicate && q.known.contains d.key then (false, q)
  else (true, q.push d position)

/-- Gives out everything in the order of positions, and in the order of
    acceptance at one position. -/
def flush (q : Queue) : List Diagnostic × Queue :=
  ((q.waiting.mergeSort (·.position ≤ ·.position)).map Queued.diagnostic,
    { q with waiting := [], known := [], errorCount := 0, warningCount := 0 })

end Queue

end Arbor
