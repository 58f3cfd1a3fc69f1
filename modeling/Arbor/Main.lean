/-
  The program: reads its arguments and its environment, and writes what the
  command line gives.
-/
import Arbor.CommandLine

open Arbor

/-- The variables of the environment that settings are read from. -/
def environmentVariables : List String :=
  ["QUILL_MAX_DEPTH", "QUILL_STEP_LIMIT", "QUILL_ERROR_LIMIT", "QUILL_ALLOW_CONFLICTS",
    "QUILL_COLOR"]

/-- Runs the command line that the program was started with. -/
def main (args : List String) : IO UInt32 := do
  let pairs ← environmentVariables.mapM fun name => return (name, ← IO.getEnv name)
  let out ← IO.getStdout
  let outcome := CommandLine.run (fun name => (pairs.lookup name).join) (← out.isTty) args
  out.putStr outcome.stdout
  (← IO.getStderr).putStr outcome.stderr
  return outcome.code.toUInt32
