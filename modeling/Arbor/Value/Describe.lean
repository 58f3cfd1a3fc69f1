/-
  Values as people read them, and their technical forms.

  An instance is described by its inputs, which may be instances in turn; each of
  them lives in another scope, so descriptions nest at most as deep as there are
  scopes.
-/
import Arbor.Decimal.Shortest
import Arbor.Text.Quoted
import Arbor.Value.Scope

namespace Arbor

namespace Value

/-- A number in words. -/
def numberText (x : Float) : String := Decimal.numberText x.toBits

/-- A value in words, with at most `depth` instances inside each other. -/
def describeWithin (p : Program) (scopes : Scopes) : Nat → Value → String
  | _, bool b => toString b
  | _, number x => numberText x
  | _, text s => s!"\"{s}\""
  | _, function d _ | _, method d _ _ => "ƒ " ++ p.nameText d "?"
  | _, definition d _ => "•" ++ p.nameText d "?"
  | _, exception e => e.describe p
  | 0, instanceOf d _ => p.nameText d "?" ++ "(…)"
  | depth + 1, instanceOf d scope =>
    let inputs := (p.inputs d).map fun input =>
      p.nameText input "?" ++ ": " ++
        ((scopes.lookup scope input).map (describeWithin p scopes depth)).getD "?"
    p.nameText d "?" ++ "(" ++ ", ".intercalate inputs ++ ")"

/-- A value in words. -/
def describe (p : Program) (scopes : Scopes) (v : Value) : String :=
  v.describeWithin p scopes (scopes.size + 1)

/-- The technical form of something with parts that are not shown. -/
def debugRecord (name : String) (parts : List String) : String :=
  String.join [name, " \x7b ", ", ".intercalate (parts ++ [".."]), " \x7d"]

/-- The technical form of a value. -/
def debug : Value → String
  | bool b => s!"Bool({b})"
  | number x => s!"Number({numberText x})"
  | text s => s!"Text({Text.quoted s})"
  | function d _ => debugRecord "Function" [s!"definition: {d.debug}", "this: None"]
  | method d _ receiver =>
    debugRecord "Function" [s!"definition: {d.debug}", s!"this: Some({receiver.debug})"]
  | definition d _ => debugRecord "StructureDefinition" [s!"definition: {d.debug}"]
  | instanceOf d _ => debugRecord "Structure" [s!"definition: {d.debug}"]
  | exception e => s!"Exception({e.debug})"

end Value

end Arbor
