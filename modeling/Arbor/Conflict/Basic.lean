/-
  Conflicts: what is wrong with a program.

  A conflict holds data only; its text comes from a `Locale`, when someone asks
  for it.

  * every kind of conflict stops a program from running, except the three
    advisories (`ConflictKind.isFatal`);
  * `Conflict.toDiagnostic` puts a conflict into the words of a locale, with one
    label per node.
-/
import Arbor.Diagnostic.Basic
import Arbor.Ty.Describe

namespace Arbor

/-- What is wrong. -/
inductive ConflictKind where
  /-- An operator or what is called does not name a function on the receiver. -/
  | notAFunction (name : Option Name) (receiver : Ty)
  /-- More inputs are given than the function takes. -/
  | unexpectedInputs (function : NodeId)
  /-- An input without a default is not given. -/
  | missingInput (function input : NodeId)
  /-- An input is given a value of a type that it does not accept. -/
  | incompatibleInput (input : NodeId) (expected given : Ty)
  /-- Advisory: mixed operators without grouping. -/
  | orderOfOperations
  /-- A structure with abstract functions declares inputs. -/
  | disallowedInputs
  /-- A structure with abstract functions implements others. -/
  | implemented
  /-- A function of an interface is not implemented. -/
  | unimplemented (interface function : NodeId)
  /-- What is implemented is not an interface. -/
  | notAnInterface
  /-- A name is not defined. -/
  | unknownName (name : Name)
  /-- A borrowed name is not shared. -/
  | unknownBorrow (name : Name)
  /-- A name is given to two inputs. -/
  | duplicateInputNames (name : Name)
  /-- A required input follows an optional one. -/
  | requiredAfterOptional
  /-- A value does not have the declared type. -/
  | incompatibleBind (expected given : Ty)
  /-- A condition is not boolean. -/
  | expectedBooleanCondition (given : Ty)
  /-- A structure with abstract functions is to be created. -/
  | notInstantiable (definition : NodeId)
  /-- A type name is not defined. -/
  | unknownTypeName (name : Name)
  /-- Advisory: an alias is given twice. -/
  | duplicateAliases (name : Name)
  /-- Advisory: two aliases differ only by case. -/
  | caseSensitive (name other : Name)
  /-- Text that could not be understood. -/
  | unparsable
deriving DecidableEq, Repr

namespace ConflictKind

/-- Whether a program with the conflict is refused. -/
def isFatal : ConflictKind → Bool
  | orderOfOperations | duplicateAliases _ | caseSensitive _ _ => false
  | _ => true

/-- The code of a conflict. -/
def code : ConflictKind → ErrorCode
  | notAFunction .. => .e2001
  | unexpectedInputs .. => .e2002
  | missingInput .. => .e2003
  | incompatibleInput .. => .e2004
  | disallowedInputs => .e2005
  | implemented => .e2006
  | unimplemented .. => .e2007
  | notAnInterface => .e2008
  | unknownName .. => .e2009
  | unknownBorrow .. => .e2010
  | duplicateInputNames .. => .e2011
  | requiredAfterOptional => .e2012
  | incompatibleBind .. => .e2013
  | expectedBooleanCondition .. => .e2014
  | notInstantiable .. => .e2015
  | unknownTypeName .. => .e2016
  | unparsable => .e2017
  | orderOfOperations => .w2001
  | duplicateAliases .. => .w2002
  | caseSensitive .. => .w2003

/-- The fatal conflicts are those whose code is not a warning. -/
theorem isWarning_code (k : ConflictKind) : k.code.isWarning = !k.isFatal := by
  cases k <;> simp [code, isFatal, ErrorCode.isWarning_eq]

end ConflictKind

/-- Something that is wrong with a program. -/
structure Conflict where
  /-- What is wrong. -/
  kind : ConflictKind
  /-- The nodes at fault. -/
  primary : List NodeId
  /-- Nodes that give context. -/
  secondary : List NodeId
deriving DecidableEq, Repr

/-- The words in which conflicts are told. -/
structure Locale where
  /-- A conflict in one sentence. -/
  explain : Program → Conflict → String
  /-- What is said about one of its nodes, primary or not. -/
  label : Program → Conflict → NodeId → Bool → String := fun p _ id _ => p.arena.kindName id

namespace Conflict

/-- Whether a program with the conflict is refused. -/
def isFatal (c : Conflict) : Bool := c.kind.isFatal

/-- The code of a conflict. -/
def code (c : Conflict) : ErrorCode := c.kind.code

/-- A conflict as a diagnostic, with one label per node. -/
def toDiagnostic (locale : Locale) (p : Program) (c : Conflict) : Diagnostic where
  code := c.code
  severity := Diagnostic.severityOf c.code
  message := locale.explain p c
  labels := c.primary.map (fun id => ⟨id, locale.label p c id true, true⟩) ++
    c.secondary.map fun id => ⟨id, locale.label p c id false, false⟩
  notes := []

end Conflict

end Arbor
