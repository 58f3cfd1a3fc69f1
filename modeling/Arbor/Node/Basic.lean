/-
  Nodes of a program.

  A node is a plain value: its slots hold ids and child lists, never the
  children themselves.  The order of a node's fields is its grammar, and every
  traversal, compilation and edit follows it.

  * `Node` has one constructor per kind, `Child` is what one slot holds;
  * `Node.fields` lists the named slots, `Node.withSlots` puts new contents in
    them, and `Node.setField?` changes one by its name;
  * `withSlots_slots`: putting back what the slots hold changes nothing.
-/
import Arbor.Name
import Arbor.Node.Id

namespace Arbor

/-- The operations that the evaluator performs itself: the bodies of the
    primitive methods. -/
inductive NativeOp where
  | numberAdd
  | numberSubtract
  | numberMultiply
  | numberDivide
  | numberLess
  | numberGreater
  | numberEqual
  | booleanAnd
  | booleanOr
  | booleanEqual
  | textConcatenate
  | textEqual
deriving DecidableEq, Repr

/-- One node of a program. -/
inductive Node where
  /-- A program: its borrowed shares, then its block. -/
  | program (borrows : NodeRange) (block : NodeId)
  /-- The import of a share by name. -/
  | borrow (name : Name)
  /-- Statements, of which the last gives the value. -/
  | block (statements : NodeRange)
  /-- A named value; without a value it declares an input. -/
  | bind (names : NodeId) (type : Option NodeId) (value : Option NodeId)
  /-- The aliases of one definition. -/
  | names (names : NodeRange)
  /-- One alias, which may be tagged with a language. -/
  | aliasName (name : Name) (language : Option Name)
  /-- A boolean. -/
  | booleanLiteral (value : Bool)
  /-- A number, by the bits of its binary64 format. -/
  | numberLiteral (bits : UInt64)
  /-- A text. -/
  | textLiteral (text : Name)
  /-- The use of a name. -/
  | reference (name : Name)
  /-- The use of a member of a value. -/
  | propertyReference (receiver : NodeId) (name : Name)
  /-- An operator between two operands. -/
  | binaryOperation (left : NodeId) (operator : Name) (right : NodeId)
  /-- A choice between two branches. -/
  | conditional (condition yes no : NodeId)
  /-- A call. -/
  | evaluate (function : NodeId) (inputs : NodeRange)
  /-- A function; without a body it is abstract. -/
  | functionDefinition (names : NodeId) (typeVariables inputs : NodeRange)
      (output body : Option NodeId)
  /-- A structure with its inputs and the definitions of its block. -/
  | structureDefinition (names : NodeId) (interfaces typeVariables inputs : NodeRange)
      (block : Option NodeId)
  /-- A type variable of a definition. -/
  | typeVariable (names : NodeId)
  /-- The type of booleans. -/
  | booleanType
  /-- The type of numbers. -/
  | numberType
  /-- The type of texts. -/
  | textType
  /-- A type given by name, with its type inputs. -/
  | nameType (name : Name) (typeInputs : NodeRange)
  /-- The body of a primitive method. -/
  | native (op : NativeOp)
  /-- Text that could not be understood. -/
  | unparsable (text : Name)
deriving DecidableEq, Repr, Inhabited

/-- What one slot of a node holds. -/
inductive Child where
  /-- A child that must be there. -/
  | one (id : NodeId)
  /-- A child that may be missing. -/
  | optional (id : Option NodeId)
  /-- A child list. -/
  | list (range : NodeRange)
deriving DecidableEq, Repr

/-- Whether two slots hold children in the same way. -/
def Child.sameShape : Child → Child → Bool
  | one _, one _ | optional _, optional _ | list _, list _ => true
  | _, _ => false

namespace Node

/-! ## Slots -/

/-- The slots of a node with their names, in the order of the grammar. -/
def fields : Node → List (String × Child)
  | program borrows main => [("borrows", .list borrows), ("block", .one main)]
  | block statements => [("statements", .list statements)]
  | bind ns type value =>
    [("names", .one ns), ("type", .optional type), ("value", .optional value)]
  | names aliases => [("names", .list aliases)]
  | propertyReference receiver _ => [("structure", .one receiver)]
  | binaryOperation left _ right => [("left", .one left), ("right", .one right)]
  | conditional condition yes no =>
    [("condition", .one condition), ("yes", .one yes), ("no", .one no)]
  | evaluate function inputs => [("function", .one function), ("inputs", .list inputs)]
  | functionDefinition ns typeVariables inputs output body =>
    [("names", .one ns), ("type_variables", .list typeVariables), ("inputs", .list inputs),
      ("output", .optional output), ("body", .optional body)]
  | structureDefinition ns interfaces typeVariables inputs body =>
    [("names", .one ns), ("interfaces", .list interfaces),
      ("type_variables", .list typeVariables), ("inputs", .list inputs),
      ("block", .optional body)]
  | typeVariable ns => [("names", .one ns)]
  | nameType _ typeInputs => [("type_inputs", .list typeInputs)]
  | borrow _ | aliasName _ _ | booleanLiteral _ | numberLiteral _ | textLiteral _ | reference _
  | booleanType | numberType | textType | native _ | unparsable _ => []

/-- What the slots of a node hold, in the order of the grammar. -/
def slots (n : Node) : List Child := n.fields.map Prod.snd

/-- What the slot called `field` holds, if the node has one. -/
def field? (n : Node) (field : String) : Option Child :=
  (n.fields.find? (·.1 == field)).map Prod.snd

/-- The node with new contents in its slots, which must have the shapes of the
    old ones; otherwise the node is left as it is. -/
def withSlots : Node → List Child → Node
  | program _ _, [.list borrows, .one main] => program borrows main
  | block _, [.list statements] => block statements
  | bind _ _ _, [.one ns, .optional type, .optional value] => bind ns type value
  | names _, [.list aliases] => names aliases
  | propertyReference _ name, [.one receiver] => propertyReference receiver name
  | binaryOperation _ operator _, [.one left, .one right] => binaryOperation left operator right
  | conditional _ _ _, [.one condition, .one yes, .one no] => conditional condition yes no
  | evaluate _ _, [.one function, .list inputs] => evaluate function inputs
  | functionDefinition _ _ _ _ _,
      [.one ns, .list typeVariables, .list inputs, .optional output, .optional body] =>
    functionDefinition ns typeVariables inputs output body
  | structureDefinition _ _ _ _ _,
      [.one ns, .list interfaces, .list typeVariables, .list inputs, .optional body] =>
    structureDefinition ns interfaces typeVariables inputs body
  | typeVariable _, [.one ns] => typeVariable ns
  | nameType name _, [.list typeInputs] => nameType name typeInputs
  | n, _ => n

/-- Putting back what the slots hold changes nothing. -/
@[simp] theorem withSlots_slots (n : Node) : n.withSlots n.slots = n := by
  cases n <;> rfl

/-! ## Kinds -/

/-- The kind of a node, as messages name it. -/
def kindName : Node → String
  | program .. => "program"
  | borrow .. => "borrow"
  | block .. => "block"
  | bind .. => "bind"
  | names .. => "names"
  | aliasName .. => "alias"
  | booleanLiteral .. => "boolean literal"
  | numberLiteral .. => "number literal"
  | textLiteral .. => "text literal"
  | reference .. => "reference"
  | propertyReference .. => "property reference"
  | binaryOperation .. => "binary operation"
  | conditional .. => "conditional"
  | evaluate .. => "evaluate"
  | functionDefinition .. => "function definition"
  | structureDefinition .. => "structure definition"
  | typeVariable .. => "type variable"
  | booleanType => "boolean type"
  | numberType => "number type"
  | textType => "text type"
  | nameType .. => "name type"
  | native .. => "native"
  | unparsable .. => "unparsable"

/-- Whether the node is a type given by the program. -/
def isType : Node → Bool
  | booleanType | numberType | textType | nameType .. => true
  | _ => false

/-- Whether the node can be typed, checked, compiled and evaluated. -/
def isExpression : Node → Bool
  | names .. | aliasName .. | typeVariable .. => false
  | n => !n.isType

/-- The names node of a definition. -/
def definitionNames? : Node → Option NodeId
  | bind ns .. | functionDefinition ns .. | structureDefinition ns .. | typeVariable ns => some ns
  | _ => none

/-- Whether the node defines a structure. -/
def isStructureDefinition : Node → Bool
  | structureDefinition .. => true
  | _ => false

/-- Whether the node is a function without a body. -/
def isAbstractFunction : Node → Bool
  | functionDefinition _ _ _ _ none => true
  | _ => false

/-- Whether the node is a function with a body. -/
def isImplementedFunction : Node → Bool
  | functionDefinition _ _ _ _ (some _) => true
  | _ => false

end Node

end Arbor
