/-
  Shortest decimal texts.

  A binary64 number is written with the fewest decimal digits that are read back
  as the same number; of the decimals with that many digits the nearest is
  taken, and of two equally near ones the greater.

  * `Interval.ofBits` is a positive number with the interval of the reals that
    are rounded to it; the ends belong to it when the number's last bit is 0;
  * `Interval.hit?` looks on one decimal grid for the point nearest to the number
    within the interval, and `Interval.shortest` tries the grids from the
    coarsest on;
  * `numberText` writes a number in positional notation.
-/

namespace Arbor.Decimal

/-- A positive number and the ends of an interval around it, as numerators over
    one denominator. -/
structure Interval where
  /-- The number. -/
  value : Nat
  /-- The lower end. -/
  low : Nat
  /-- The upper end. -/
  high : Nat
  /-- The common denominator. -/
  unit : Nat
  /-- Whether the ends belong to the interval. -/
  closed : Bool
deriving Repr

/-- A decimal number: `digits · 10 ^ exponent`. -/
structure Scientific where
  /-- The digits, read as a number. -/
  digits : Nat
  /-- The power of ten that they are multiplied with. -/
  exponent : Int
deriving DecidableEq, Repr

/-- The exponent bits of a binary64 number. -/
def biasedExponent (bits : UInt64) : Nat := bits.toNat / Nat.pow 2 52 % Nat.pow 2 11

/-- The fraction bits of a binary64 number. -/
def fraction (bits : UInt64) : Nat := bits.toNat % Nat.pow 2 52

/-- Whether the sign bit of a binary64 number is set. -/
def isNegative (bits : UInt64) : Bool := Nat.pow 2 63 ≤ bits.toNat

namespace Interval

/-- The absolute value of a finite number that is not zero, with the reals that
    are rounded to it.  Below a power of two the numbers are twice as dense. -/
def ofBits (bits : UInt64) : Interval :=
  let e := biasedExponent bits
  let f := fraction bits
  let m := if e = 0 then f else f + Nat.pow 2 52
  let exponent : Int := (max e 1 : Nat) - 1075
  let scale := Nat.pow 2 exponent.toNat
  { value := 4 * m * scale
    low := (4 * m - if f = 0 ∧ 1 < e then 1 else 2) * scale
    high := (4 * m + 2) * scale
    unit := 4 * Nat.pow 2 (-exponent).toNat
    closed := m % 2 = 0 }

/-- The number of digits before the decimal point, or for numbers below one tenth
    the negative number of zeros after it. -/
def magnitude (x : Interval) : Int :=
  ((Nat.toDigits 10 (x.value * Nat.pow 10 400 / x.unit)).length : Int) - 400

/-- The multiple of `10 ^ g` in the interval that is nearest to the number, the
    greater of two equally near ones. -/
def hit? (x : Interval) (g : Int) : Option Scientific :=
  let up := Nat.pow 10 (-g).toNat
  let step := x.unit * Nat.pow 10 g.toNat
  let v := x.value * up
  let inside := fun k : Nat =>
    (x.low * up < k * step && k * step < x.high * up) ||
      (x.closed && (k * step == x.low * up || k * step == x.high * up))
  let d := v / step
  match inside d, inside (d + 1) with
  | true, true => some ⟨if 2 * v < (2 * d + 1) * step then d else d + 1, g⟩
  | true, false => some ⟨d, g⟩
  | false, true => some ⟨d + 1, g⟩
  | false, false => none

/-- The decimal with the fewest digits in the interval. -/
def shortest (x : Interval) : Scientific :=
  ((List.range 17).findSome? fun n => x.hit? (x.magnitude - (n + 1 : Nat))).getD ⟨0, 0⟩

end Interval

/-- Takes zeros away from the end of a number's digits. -/
def Scientific.stripped (d : Scientific) : Scientific :=
  if _h : 0 < d.digits ∧ d.digits % 10 = 0 then
    Scientific.stripped ⟨d.digits / 10, d.exponent + 1⟩
  else d
termination_by d.digits
decreasing_by omega

/-- A decimal in positional notation. -/
def Scientific.positional (d : Scientific) : String :=
  let cs := Nat.toDigits 10 d.digits
  if 0 ≤ d.exponent then
    String.ofList (cs ++ List.replicate d.exponent.toNat '0')
  else
    let places := (-d.exponent).toNat
    let padded := List.replicate (places + 1 - cs.length) '0' ++ cs
    let point := padded.length - places
    String.ofList (padded.take point ++ '.' :: padded.drop point)

/-- A binary64 number in positional notation, with the fewest digits that are
    read back as the same number. -/
def numberText (bits : UInt64) : String :=
  let sign := if isNegative bits then "-" else ""
  if biasedExponent bits = 2047 then
    if fraction bits = 0 then sign ++ "inf" else "NaN"
  else if biasedExponent bits = 0 ∧ fraction bits = 0 then sign ++ "0"
  else sign ++ (Interval.ofBits bits).shortest.stripped.positional

end Arbor.Decimal
