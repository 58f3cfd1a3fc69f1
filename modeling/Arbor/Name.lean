/-
  Names.

  A name is the number under which an interner keeps a text, so that two names
  are compared without looking at their texts.  The first numbers are fixed:
  they stand for the empty text, for `this` and for the operators.

  * `Name.reserved` lists the fixed texts in the order of their numbers;
  * `Name.isShortCircuit` holds of the two operators that may skip their right
    operand.
-/

namespace Arbor

/-- An interned text, by its number. -/
structure Name where
  /-- The place of the text in the interner. -/
  index : Nat
deriving DecidableEq, Repr, Inhabited

namespace Name

/-- The empty text. -/
def empty : Name := ⟨0⟩
/-- The receiver of a method. -/
def this : Name := ⟨1⟩
/-- Addition. -/
def add : Name := ⟨2⟩
/-- Subtraction. -/
def subtract : Name := ⟨3⟩
/-- Multiplication. -/
def multiply : Name := ⟨4⟩
/-- Division. -/
def divide : Name := ⟨5⟩
/-- Comparison, less. -/
def less : Name := ⟨6⟩
/-- Comparison, greater. -/
def greater : Name := ⟨7⟩
/-- Equality. -/
def equal : Name := ⟨8⟩
/-- Conjunction, which may skip its right operand. -/
def and : Name := ⟨9⟩
/-- Disjunction, which may skip its right operand. -/
def or : Name := ⟨10⟩

/-- The texts of the fixed names, in the order of their numbers. -/
def reserved : List String := ["", "this", "+", "-", "*", "/", "<", ">", "=", "&", "|"]

/-- Whether the name is an operator that may skip its right operand. -/
def isShortCircuit (n : Name) : Bool := n == and || n == or

/-- The technical form of a name, which shows its number. -/
def debug (n : Name) : String := s!"Name({n.index})"

end Name

end Arbor
