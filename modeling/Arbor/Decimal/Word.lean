/-
  Reading numbers of 64 bits.

  A number is written with decimal digits, of which there is at least one, and
  may have a plus sign before them.  A number that does not fit in 64 bits is not
  read.
-/

namespace Arbor.Decimal

/-- The greatest number of 64 bits. -/
def maxWord : Nat := Nat.pow 2 64 - 1

/-- The number that decimal digits stand for. -/
def ofDigits? (cs : List Char) : Option Nat :=
  if cs.isEmpty || !cs.all Char.isDigit then none
  else some (cs.foldl (fun n c => 10 * n + (c.toNat - '0'.toNat)) 0)

/-- Reads a number of 64 bits. -/
def word? (s : String) : Option Nat :=
  let digits := match s.toList with
    | '+' :: cs => cs
    | cs => cs
  (ofDigits? digits).filter (· ≤ maxWord)

end Arbor.Decimal
