/-
  Types as people read them.

  A type is described with the names that the program gives to its definitions;
  a definition without a name is described by a question mark.
-/
import Arbor.Program.Basic

namespace Arbor.Program

variable (p : Program)

mutual

/-- A type in words. -/
def describe : Ty → String
  | .primitive q => q.name
  | .instanceOf d args =>
    if args.isEmpty then p.nameText d "?"
    else p.nameText d "?" ++ "<" ++ ", ".intercalate (describeAll args) ++ ">"
  | .definition d => "•" ++ p.nameText d "?"
  | .function d => "ƒ " ++ p.nameText d "?"
  | .typeVar v => p.nameText v "?"
  | .union members => " | ".intercalate (describeAll members)
  | .never => "never"
  | .unknown => "unknown"

/-- Each of several types in words. -/
def describeAll : List Ty → List String
  | [] => []
  | t :: ts => describe t :: describeAll ts

end

end Arbor.Program
