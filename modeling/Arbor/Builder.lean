/-
  Building programs.

  The builder allocates nodes one call at a time and interns the names it is
  given.  The order of allocation is part of its contract: parts that a call
  makes itself come before the node that the call returns, in the order given
  with each function.

  A child list that is too long ends the building.
-/
import Arbor.Arena.Basic
import Arbor.Interner

namespace Arbor

/-- All nodes and all names of a program and its versions. -/
structure Forest where
  /-- The nodes. -/
  arena : Arena
  /-- The names. -/
  interner : Interner
deriving Inhabited

/-- A forest without nodes. -/
def Forest.empty : Forest := ⟨.empty, .initial⟩

/-- Building adds to a forest, and ends when a child list is too long. -/
abbrev Build := StateT Forest (Except EditError)

namespace Build

/-- The name of a text. -/
def name (s : String) : Build Name :=
  modifyGet fun f => let (n, i) := f.interner.intern s; (n, { f with interner := i })

/-- Adds a node. -/
def add (n : Node) : Build NodeId :=
  modifyGet fun f => let (id, a) := f.arena.alloc n; (id, { f with arena := a })

/-- Adds a child list. -/
def list (ids : List NodeId) : Build NodeRange := fun f =>
  match f.arena.allocList ids with
  | (.ok r, a) => .ok (r, { f with arena := a })
  | (.error e, _) => .error e

/-! ## Names -/

/-- Aliases with their language tags, then their list, then the names node. -/
def taggedNames (aliases : List (String × Option String)) : Build NodeId := do
  let ids ← aliases.mapM fun (text, language) => do
    let n ← name text
    let l ← language.mapM name
    add (.aliasName n l)
  add (.names (← list ids))

/-- Aliases without language tags. -/
def names (aliases : List String) : Build NodeId := taggedNames (aliases.map (·, none))

/-! ## Expressions -/

/-- A boolean. -/
def boolean (value : Bool) : Build NodeId := add (.booleanLiteral value)

/-- A number, by the bits of its binary64 format. -/
def number (bits : UInt64) : Build NodeId := add (.numberLiteral bits)

/-- A text. -/
def text (value : String) : Build NodeId := do add (.textLiteral (← name value))

/-- The use of a name. -/
def reference (s : String) : Build NodeId := do add (.reference (← name s))

/-- The use of a member. -/
def property (receiver : NodeId) (s : String) : Build NodeId := do
  add (.propertyReference receiver (← name s))

/-- An operator between two operands. -/
def binary (left : NodeId) (operator : String) (right : NodeId) : Build NodeId := do
  add (.binaryOperation left (← name operator) right)

/-- A choice between two branches. -/
def conditional (condition yes no : NodeId) : Build NodeId := add (.conditional condition yes no)

/-- A call. -/
def evaluate (function : NodeId) (inputs : List NodeId) : Build NodeId := do
  add (.evaluate function (← list inputs))

/-- A block. -/
def block (statements : List NodeId) : Build NodeId := do add (.block (← list statements))

/-- A named value: the alias, the names, then the bind. -/
def bind (s : String) (type value : Option NodeId) : Build NodeId := do
  add (.bind (← names [s]) type value)

/-- The declaration of an input: a bind with a type and without a value. -/
def input (s : String) (type : NodeId) : Build NodeId := bind s (some type) none

/-- The borrowing of a share. -/
def borrow (s : String) : Build NodeId := do add (.borrow (← name s))

/-- A program: the block of the statements, then the program. -/
def program (borrows statements : List NodeId) : Build NodeId := do
  let main ← block statements
  add (.program (← list borrows) main)

/-- The body of a primitive method. -/
def native (op : NativeOp) : Build NodeId := add (.native op)

/-- Text that could not be understood. -/
def unparsable (s : String) : Build NodeId := do add (.unparsable (← name s))

/-! ## Types -/

/-- The type of booleans. -/
def booleanType : Build NodeId := add .booleanType

/-- The type of numbers. -/
def numberType : Build NodeId := add .numberType

/-- The type of texts. -/
def textType : Build NodeId := add .textType

/-- A type given by name. -/
def nameType (s : String) (typeInputs : List NodeId) : Build NodeId := do
  let n ← name s
  add (.nameType n (← list typeInputs))

/-- A type variable: the alias, the names, then the variable. -/
def typeVariable (s : String) : Build NodeId := do add (.typeVariable (← names [s]))

/-! ## Definitions -/

/-- A function with type variables, and without a body an abstract one: the
    alias, the names, then the function. -/
def genericFunction (s : String) (typeVariables inputs : List NodeId)
    (output body : Option NodeId) : Build NodeId := do
  let ns ← names [s]
  let vs ← list typeVariables
  let is ← list inputs
  add (.functionDefinition ns vs is output body)

/-- A function. -/
def function (s : String) (inputs : List NodeId) (output : Option NodeId) (body : NodeId) :
    Build NodeId :=
  genericFunction s [] inputs output (some body)

/-- A function without a body, to be implemented by structures. -/
def abstractFunction (s : String) (inputs : List NodeId) (output : Option NodeId) :
    Build NodeId :=
  genericFunction s [] inputs output none

/-- A structure with type variables: the alias, the names, a reference for each
    interface, the block if there are statements, then the structure. -/
def genericStructure (s : String) (typeVariables : List NodeId) (interfaces : List String)
    (inputs statements : List NodeId) : Build NodeId := do
  let ns ← names [s]
  let refs ← interfaces.mapM reference
  let fs ← list refs
  let vs ← list typeVariables
  let is ← list inputs
  let body ← if statements.isEmpty then pure none else some <$> block statements
  add (.structureDefinition ns fs vs is body)

/-- A structure. -/
def structureDef (s : String) (interfaces : List String) (inputs statements : List NodeId) :
    Build NodeId :=
  genericStructure s [] interfaces inputs statements

end Build

end Arbor
