/-
  Diagnostics as they are shown on a terminal.

  A diagnostic takes a line for its severity, code and message, a line for each
  label with an arrow for primary ones, a line for each note, and an empty line.
  Colors are put around the parts when they are wanted.
-/
import Arbor.Diagnostic.Basic

namespace Arbor

/-- When output is colored. -/
inductive ColorMode where
  /-- On a terminal only. -/
  | auto
  | always
  | never
deriving DecidableEq, Repr

namespace ColorMode

/-- Whether output is colored. -/
def usesColors (m : ColorMode) (isTerminal : Bool) : Bool :=
  match m with
  | auto => isTerminal
  | always => true
  | never => false

/-- Reads a color mode in either case, with blanks around it; an unknown word is
    given back in lower case. -/
def ofText (s : String) : Except String ColorMode :=
  let word := Text.asciiLower (Text.trimmed s)
  if word = "auto" then .ok auto
  else if word = "always" then .ok always
  else if word = "never" then .ok never
  else .error word

/-- The wording for a word that is no color mode. -/
def unknownMessage (word : String) : String := s!"unknown color mode `{word}`"

end ColorMode

namespace Terminal

/-- The color of errors. -/
def errorColor : String := "\x1b[1;31m"
/-- The color of warnings. -/
def warningColor : String := "\x1b[1;33m"
/-- The color of notes. -/
def noteColor : String := "\x1b[1;36m"
/-- Bold text. -/
def bold : String := "\x1b[1m"
/-- The color of labels that give context. -/
def secondaryColor : String := "\x1b[1;34m"
/-- The end of a color. -/
def reset : String := "\x1b[0m"

/-- The color of a severity. -/
def severityColor : Severity → String
  | .error => errorColor
  | .warning => warningColor
  | .note => noteColor

/-- A text in a color, if colors are wanted. -/
def colored (colors : Bool) (color text : String) : String :=
  if colors then color ++ text ++ reset else text

/-- The line of one label. -/
def labelLine (colors : Bool) (severity : Severity) (l : Label) : String :=
  "  " ++ (if l.isPrimary then "-->" else "   ") ++ s!" {l.node.display}: " ++
    colored colors (if l.isPrimary then severityColor severity else secondaryColor) l.message ++
    "\n"

/-- The line of one note. -/
def noteLine (colors : Bool) (note : String) : String :=
  "   = " ++ colored colors noteColor "note" ++ s!": {note}\n"

/-- A diagnostic as it is shown. -/
def render (colors : Bool) (d : Diagnostic) : String :=
  colored colors (severityColor d.severity) d.severity.text ++
    colored colors bold s!"[{d.code.text}]" ++
    s!": {d.message}\n" ++
    String.join (d.labels.map (labelLine colors d.severity)) ++
    String.join (d.notes.map (noteLine colors)) ++ "\n"

/-- Diagnostics as they are shown, one after another. -/
def renderAll (colors : Bool) (ds : List Diagnostic) : String :=
  String.join (ds.map (render colors))

/-- A number of things. -/
def counted (n : Nat) (thing : String) : String :=
  if n = 1 then s!"{n} {thing}" else s!"{n} {thing}s"

/-- The line that sums up, if there is anything to sum up. -/
def summary (errors warnings : Nat) : String :=
  if errors = 0 ∧ warnings = 0 then ""
  else
    let parts := (if 0 < errors then [counted errors "error"] else []) ++
      (if 0 < warnings then [counted warnings "warning"] else [])
    " and ".intercalate parts ++ " reported\n"

end Terminal

end Arbor
