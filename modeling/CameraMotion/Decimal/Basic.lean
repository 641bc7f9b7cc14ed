/-!
# Decimals and doubles

A decimal is a natural number scaled by a power of ten.  This module joins
decimals to doubles in exact natural-number arithmetic.

Main definitions:

- `Decimal.toFloat` is the double nearest to a decimal.
- `Magnitude.ofFloat` takes a double apart into a sign and a natural number
  scaled by a power of two.
- `nearestFloat` puts such a scaled number together again, rounding once.
-/

namespace CameraMotion

/-- The number `±digits · 10 ^ exponent`. -/
structure Decimal where
  /-- Whether the number lies below zero. -/
  negative : Bool
  /-- The significant digits, read as one natural number. -/
  digits : Nat
  /-- The power of ten that the last digit counts. -/
  exponent : Int
deriving DecidableEq, Repr

/-- What a double stands for. -/
inductive Magnitude where
  /-- Not a number. -/
  | nan
  /-- An infinity. -/
  | infinite (negative : Bool)
  /-- The number `±mantissa · 2 ^ exponent`. -/
  | finite (negative : Bool) (mantissa : Nat) (exponent : Int)
deriving DecidableEq, Repr

/-! ## Taking a double apart -/

/-- The smallest mantissa of a double with full precision, `2 ^ 52`. -/
def Magnitude.hiddenBit : Nat :=
  Nat.pow 2 52

/-- The exponent of the spacing between the smallest doubles. -/
def Magnitude.leastExponent : Int :=
  -1074

/-- The sign, mantissa and exponent stored in a double. -/
def Magnitude.ofFloat (x : Float) : Magnitude :=
  let bits := x.toBits.toNat
  let negative := bits / Nat.pow 2 63 == 1
  let scale := bits / hiddenBit % 2048
  let fraction := bits % hiddenBit
  if scale = 2047 then
    if fraction = 0 then .infinite negative else .nan
  else if scale = 0 then
    .finite negative fraction leastExponent
  else
    .finite negative (fraction + hiddenBit) (leastExponent + (scale - 1))

/-! ## Putting a double together -/

/-- The double nearest to `mantissa · 2 ^ exponent`.  A negative power of two is
the same power of five, counted in the negative power of ten. -/
def nearestFloat (mantissa : Nat) (exponent : Int) : Float :=
  match exponent with
  | .ofNat n => Float.ofScientific (mantissa * Nat.pow 2 n) false 0
  | .negSucc n => Float.ofScientific (mantissa * Nat.pow 5 (n + 1)) true (n + 1)

namespace Decimal

/-- The decimal digits of a natural number, most significant first. -/
def digitChars (n : Nat) : List Char :=
  Nat.toDigits 10 n

/-- How many decimal digits a natural number has. -/
def digitCount (n : Nat) : Nat :=
  (digitChars n).length

/-- A first digit at or above this power of ten lies beyond every double. -/
def overflowExponent : Int :=
  310

/-- A first digit below this power of ten rounds to zero. -/
def underflowExponent : Int :=
  -330

/-- The double nearest to the digits, sign left out.  The two bounds keep an
exponent of any size from being raised to a power. -/
def magnitudeToFloat (digits : Nat) (exponent : Int) : Float :=
  let leading := exponent + digitCount digits
  if digits = 0 || leading < underflowExponent then
    0
  else if overflowExponent < leading then
    1.0 / 0.0
  else
    match exponent with
    | .ofNat n => Float.ofScientific (digits * Nat.pow 10 n) false 0
    | .negSucc n => Float.ofScientific digits true (n + 1)

/-- The double nearest to a decimal.  Zero keeps its sign. -/
def toFloat (d : Decimal) : Float :=
  let magnitude := magnitudeToFloat d.digits d.exponent
  if d.negative then -magnitude else magnitude

end Decimal

end CameraMotion
