/-
  Runs of the machine.

  * `resume` runs steps until no evaluation is open, or until the limit on the
    steps of one call is reached; inputs that wait are run as well, and the value
    is the result of the last run;
  * `run` begins a run first if nothing was run.
-/
import Arbor.Machine.Work

namespace Arbor.Machine

variable (p : Program) (limits : Limits)

/-- Runs on, after `taken` steps of this call. -/
def resume (taken : Nat) (m : Machine) : Except EvalError Value × Machine :=
  if m.frames.isEmpty then
    (match m.result with
      | some v => .ok v
      | none => .error .notStarted, m)
  else
    match limits.steps.filter (· ≤ taken) with
    | some limit => (.error (.stepLimit limit), m)
    | none =>
      match _h : m.step p limits with
      | (.error e, m') => (.error e, m')
      | (.ok _, m') => resume (taken + 1) m'
termination_by (m.pending.length, work p limits m.frames)
decreasing_by
  rcases step_decreases p limits _h with h | ⟨he, hw⟩
  · exact Prod.Lex.left _ _ h
  · rw [he]; exact Prod.Lex.right _ hw

/-- Runs to the end, beginning a run if nothing was run. -/
def run (m : Machine) : Except EvalError Value × Machine :=
  resume p limits 0 (if m.frames.isEmpty && m.result.isNone then m.start p else m)

end Arbor.Machine
