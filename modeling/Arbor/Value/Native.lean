/-
  The operations of the primitive methods.

  An operation is applied to a receiver and an input.  Operands of the wrong kind
  only come up when a program with fatal conflicts is run anyway; the operations
  on booleans then miss a boolean, and the others miss a function.
-/
import Arbor.Value.Basic

namespace Arbor.NativeOp

/-- An operation on two numbers. -/
def onNumbers (x y : Value) (f : Float → Float → Except ExceptionKind Value) :
    Except ExceptionKind Value :=
  match x, y with
  | .number a, .number b => f a b
  | _, _ => .error (.function none)

/-- An operation on two booleans. -/
def onBooleans (x y : Value) (f : Bool → Bool → Bool) : Except ExceptionKind Value :=
  match x, y with
  | .bool a, .bool b => .ok (.bool (f a b))
  | _, _ => .error .expectedBoolean

/-- An operation on two texts. -/
def onTexts (x y : Value) (f : String → String → Value) : Except ExceptionKind Value :=
  match x, y with
  | .text a, .text b => .ok (f a b)
  | _, _ => .error (.function none)

/-- Division, except by zero. -/
def divide (a b : Float) : Except ExceptionKind Value :=
  if b == 0.0 then .error .divisionByZero else .ok (.number (a / b))

/-- Applies an operation to a receiver and an input. -/
def apply (op : NativeOp) (x y : Value) : Except ExceptionKind Value :=
  match op with
  | numberAdd => onNumbers x y fun a b => .ok (.number (a + b))
  | numberSubtract => onNumbers x y fun a b => .ok (.number (a - b))
  | numberMultiply => onNumbers x y fun a b => .ok (.number (a * b))
  | numberDivide => onNumbers x y divide
  | numberLess => onNumbers x y fun a b => .ok (.bool (a < b))
  | numberGreater => onNumbers x y fun a b => .ok (.bool (b < a))
  | numberEqual => onNumbers x y fun a b => .ok (.bool (a == b))
  | booleanAnd => onBooleans x y fun a b => a && b
  | booleanOr => onBooleans x y fun a b => a || b
  | booleanEqual => onBooleans x y fun a b => a == b
  | textConcatenate => onTexts x y fun a b => .text (a ++ b)
  | textEqual => onTexts x y fun a b => .bool (a == b)

end Arbor.NativeOp
