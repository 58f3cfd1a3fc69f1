/-
  The basis: the methods of the primitive types.

  Each primitive method is an ordinary function with one input and a native
  body, so operators, input checks and evaluation treat it like any other
  function.  The basis is allocated before everything else.

  * `Basis.methods` is the table of the methods, in the order of allocation;
  * `Basis.build` allocates them, and `Basis.function?` finds one.
-/
import Arbor.Builder
import Arbor.Ty.Basic

namespace Arbor

/-- What a primitive method is called, takes and gives. -/
structure PrimitiveMethod where
  /-- The type that has the method. -/
  receiver : Primitive
  /-- The operator that names it. -/
  operator : String
  /-- The type of its input. -/
  input : Primitive
  /-- The type of its value. -/
  output : Primitive
  /-- The operation that it performs. -/
  op : NativeOp

/-- The functions of the primitive methods. -/
structure Basis where
  /-- The function of each method, by receiver and name. -/
  functions : List ((Primitive × Name) × NodeId)
deriving Inhabited

namespace Basis

/-- The primitive methods in the order of allocation. -/
def methods : List PrimitiveMethod := [
  ⟨.number, "+", .number, .number, .numberAdd⟩,
  ⟨.number, "-", .number, .number, .numberSubtract⟩,
  ⟨.number, "*", .number, .number, .numberMultiply⟩,
  ⟨.number, "/", .number, .number, .numberDivide⟩,
  ⟨.number, "<", .number, .boolean, .numberLess⟩,
  ⟨.number, ">", .number, .boolean, .numberGreater⟩,
  ⟨.number, "=", .number, .boolean, .numberEqual⟩,
  ⟨.boolean, "&", .boolean, .boolean, .booleanAnd⟩,
  ⟨.boolean, "|", .boolean, .boolean, .booleanOr⟩,
  ⟨.boolean, "=", .boolean, .boolean, .booleanEqual⟩,
  ⟨.text, "+", .text, .text, .textConcatenate⟩,
  ⟨.text, "=", .text, .boolean, .textEqual⟩]

/-- The name of the input of every primitive method. -/
def inputName : String := "value"

/-- A node for a primitive type. -/
def typeNode : Primitive → Build NodeId
  | .boolean => Build.booleanType
  | .number => Build.numberType
  | .text => Build.textType

/-- Allocates one method: its input, its output type, its body, then the
    function. -/
def buildMethod (m : PrimitiveMethod) : Build ((Primitive × Name) × NodeId) := do
  let input ← Build.input inputName (← typeNode m.input)
  let output ← typeNode m.output
  let body ← Build.native m.op
  let f ← Build.function m.operator [input] (some output) body
  return ((m.receiver, ← Build.name m.operator), f)

/-- Allocates all primitive methods. -/
def build : Build Basis := return ⟨← methods.mapM buildMethod⟩

/-- The function of the method of a primitive type with a name. -/
def function? (b : Basis) (p : Primitive) (n : Name) : Option NodeId := b.functions.lookup (p, n)

/-- The names of the methods of a primitive type, in order. -/
def methodNames (b : Basis) (p : Primitive) : List Name :=
  ((b.functions.filter (·.1.1 == p)).map (·.1.2)).mergeSort (·.index ≤ ·.index)

/-- The functions of the basis. -/
def roots (b : Basis) : List NodeId := b.functions.map (·.2)

end Basis

/-- A forest that holds nothing but the basis. -/
def Forest.withBasis : Basis × Forest :=
  match Basis.build.run .empty with
  | .ok r => r
  | .error _ => (default, .empty)

end Arbor
