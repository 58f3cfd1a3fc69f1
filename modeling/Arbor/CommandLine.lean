/-
  The command line.

  A command line is a list of words together with the variables of an
  environment; running it gives what is written and an exit code.

  * 0 is success; 1 is a command that is used wrongly, settings that make no
    sense, a session that fails, or a demo with errors; 2 is a demo or code that
    does not exist, or a report that does not fit.
-/
import Arbor.Report.Command

namespace Arbor.CommandLine

/-- What running a command line gives. -/
structure Outcome where
  /-- The exit code. -/
  code : Nat
  /-- What is written as the report. -/
  stdout : String
  /-- What is written about errors and usage. -/
  stderr : String
deriving DecidableEq, Repr

/-- Lines of text. -/
def lines (ls : List String) : String := String.join (ls.map (· ++ "\n"))

/-- How the command line is used. -/
def usage : String := lines [
  "Quill - semantic core of the Quill language",
  "",
  "Usage: quill <command> [args]",
  "",
  "Commands:",
  "  demo [name]      List the bundled programs, or run one",
  "  step <name>      Run a program one step at a time",
  "  check <name>     Report a program's conflicts",
  "  explain <code>   Explain an error code",
  "",
  "Environment:",
  "  QUILL_MAX_DEPTH, QUILL_STEP_LIMIT, QUILL_ERROR_LIMIT,",
  "  QUILL_ALLOW_CONFLICTS, QUILL_COLOR, RUST_LOG, QUILL_LOG_TREE"]

/-- How codes are explained. -/
def explainUsage : String := lines [
  "Usage: quill explain <code>",
  "",
  "Codes look like E2001 (conflicts), W2001 (advisories) or E6001 (exceptions)."]

/-- A command that is used wrongly. -/
def misused (stderr : String) : Outcome := ⟨1, "", stderr⟩

/-- Runs a report into a sink without bounds; `fails` says whether its result is a
    failure. -/
def ofReport {α : Type} (report : Report α) (fails : α → Bool) : Outcome :=
  match report.run.run (.ofRoom none) with
  | (.ok a, sink) => ⟨if fails a then 1 else 0, sink.written, ""⟩
  | (.error (.session e), sink) => ⟨1, sink.written, s!"error: {e.message}\n"⟩
  | (.error e, sink) => ⟨2, sink.written, s!"error: {e.message}\n"⟩

/-- Runs a report that has no result. -/
def ofUnit (report : Report Unit) : Outcome := ofReport report fun _ => false

/-- The settings of a command: colors depend on where the report goes. -/
def settled (settings : Settings) (isTerminal : Bool) : Settings :=
  match settings.color with
  | .auto => { settings with color := if isTerminal then .always else .never }
  | _ => settings

/-- Runs a command with its target, if there is one. -/
def runCommand (settings : Settings) (command : String) (target : Option String) : Outcome :=
  match command, target with
  | "demo", none => ofUnit Report.list
  | "demo", some name => ofUnit (Report.demo name settings)
  | "step", some name => ofUnit (Report.step name settings)
  | "check", some name => ofReport (Report.check name settings) id
  | "explain", some code => ofUnit (Report.explain code)
  | "step", none | "check", none => misused (lines [s!"Usage: quill {command} <demo>"])
  | "explain", none => misused explainUsage
  | "help", _ | "--help", _ | "-h", _ => ⟨0, "", usage⟩
  | _, _ => misused (lines [s!"Unknown command: {command}", ""] ++ usage)

/-- Runs a command line. -/
def run (lookup : String → Option String) (isTerminal : Bool) : List String → Outcome
  | [] => misused usage
  | command :: rest =>
    match Settings.ofLookup lookup with
    | .error e => misused (lines [s!"error: {e.message}"])
    | .ok settings => runCommand (settled settings isTerminal) command rest.head?

end Arbor.CommandLine
