/-
  Conflicts in English.
-/
import Arbor.Conflict.Basic

namespace Arbor

namespace Conflict

/-- The name of a definition in a sentence. -/
def nameOf (p : Program) (id : NodeId) : String := p.nameText id "this definition"

/-- What is wrong, in one English sentence. -/
def explainInEnglish (p : Program) (c : Conflict) : String :=
  match c.kind with
  | .notAFunction (some n) receiver =>
    s!"`{p.textOf n}` is not a function on {p.describe receiver}"
  | .notAFunction none receiver => s!"{p.describe receiver} cannot be evaluated"
  | .unexpectedInputs f => s!"`{nameOf p f}` was given more inputs than it takes"
  | .missingInput f input => s!"`{nameOf p f}` needs a value for `{nameOf p input}`"
  | .incompatibleInput input expected given =>
    s!"`{nameOf p input}` expects {p.describe expected}, but this is {p.describe given}"
  | .orderOfOperations => "operators are evaluated left to right; group them to be clear"
  | .disallowedInputs => "a structure with abstract functions cannot have inputs"
  | .implemented => "a structure cannot mix abstract and implemented functions"
  | .unimplemented interface f => s!"`{nameOf p f}` from `{nameOf p interface}` is not implemented"
  | .notAnInterface => "only interfaces can be implemented"
  | .unknownName n => s!"`{p.textOf n}` is not defined"
  | .unknownBorrow n => s!"nothing named `{p.textOf n}` is shared"
  | .duplicateInputNames n => s!"more than one input is named `{p.textOf n}`"
  | .requiredAfterOptional => "required inputs must come before optional ones"
  | .incompatibleBind expected given =>
    s!"expected {p.describe expected}, but the value is {p.describe given}"
  | .expectedBooleanCondition given => s!"conditions must be boolean, not {p.describe given}"
  | .notInstantiable d => s!"`{nameOf p d}` has abstract functions and cannot be created"
  | .unknownTypeName n => s!"no type is named `{p.textOf n}`"
  | .duplicateAliases n => s!"`{p.textOf n}` is given twice"
  | .caseSensitive n other => s!"`{p.textOf n}` and `{p.textOf other}` differ only by case"
  | .unparsable => "this could not be parsed"

/-- What is said in English about a node of a conflict. -/
def labelInEnglish (p : Program) (c : Conflict) (id : NodeId) (isPrimary : Bool) : String :=
  let kind := p.arena.kindName id
  match c.kind, isPrimary with
  | _, true => kind
  | .unimplemented .., false => s!"required by this {kind}"
  | .notAnInterface, false => s!"this {kind} is not an interface"
  | _, false => s!"related {kind}"

end Conflict

/-- The English locale. -/
def Locale.english : Locale where
  explain := Conflict.explainInEnglish
  label := Conflict.labelInEnglish

end Arbor
