/-
  Values of a running program.

  An exception is a value: it is what a program gives when something went wrong.
  A function keeps the scope in which it was defined, and a method also the value
  that it was reached from; an instance of a structure is the scope that holds
  its inputs and the definitions of its block.

  Two instances are equal only if they are the same one, while functions are
  compared by their definitions and receivers, and numbers as numbers.
-/
import Arbor.Value.Exception

namespace Arbor

/-- A scope, by the number of scopes created before it. -/
structure ScopeId where
  /-- The number itself. -/
  index : Nat
deriving DecidableEq, Repr

/-- What evaluating a node gives. -/
inductive Value where
  /-- A boolean. -/
  | bool (b : Bool)
  /-- A number. -/
  | number (x : Float)
  /-- A text. -/
  | text (s : String)
  /-- A function and the scope that it closes over; the primitive methods close
      over nothing. -/
  | function (definition : NodeId) (closure : Option ScopeId)
  /-- A function that was reached as a member of a value. -/
  | method (definition : NodeId) (closure : Option ScopeId) (receiver : Value)
  /-- A structure, which is called to create instances, and its scope. -/
  | definition (definition : NodeId) (closure : Option ScopeId)
  /-- An instance of a structure. -/
  | instanceOf (definition : NodeId) (scope : ScopeId)
  /-- Something that went wrong. -/
  | exception (e : Exception)
deriving Repr

namespace Value

instance : Inhabited Value := ⟨bool false⟩

/-- Whether two values are equal. -/
def equal : Value → Value → Bool
  | bool a, bool b => a == b
  | number x, number y => x == y
  | text s, text t => s == t
  | function d _, function e _ => d == e
  | method d _ v, method e _ w => d == e && equal v w
  | definition d _, definition e _ => d == e
  | instanceOf d s, instanceOf e t => d == e && s == t
  | exception e, exception f => e == f
  | _, _ => false

/-- A number by the bits of its binary64 format. -/
def ofBits (bits : UInt64) : Value := number (Float.ofBits bits)

/-- The exception that the value is, if it is one. -/
def exception? : Value → Option Exception
  | exception e => some e
  | _ => none

/-- Whether the value is an exception. -/
def isException (v : Value) : Bool := v.exception?.isSome

/-- The boolean that the value is, if it is one. -/
def bool? : Value → Option Bool
  | bool b => some b
  | _ => none

/-- The number that the value is, if it is one. -/
def number? : Value → Option Float
  | number x => some x
  | _ => none

/-- The type of a primitive value. -/
def primitive? : Value → Option Primitive
  | bool _ => some .boolean
  | number _ => some .number
  | text _ => some .text
  | _ => none

/-- A function, reached from a receiver or not. -/
def functionOf (definition : NodeId) (closure : Option ScopeId) : Option Value → Value
  | some receiver => method definition closure receiver
  | none => function definition closure

end Value

end Arbor
