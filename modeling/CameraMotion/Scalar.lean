/-!
# Scalars

The numbers in which positions, angles, scale factors and times are measured.
Everything above this module is written against the two classes below, so the
same definitions run on doubles and can be reasoned about over an ordered
field, where the arithmetic is exact.

Main definitions:

- `Scalar` is the ordered arithmetic that times and values need.
- `PlaneScalar` adds what the plane needs: lengths, sines and cosines.
- `Scalar.max` and `Scalar.min` pass over an operand that is not a number.
-/

namespace CameraMotion

/-- Ordered arithmetic with decimal literals.  The order need not be total and
`==` need not be reflexive: a double that is not a number is below nothing and
equal to nothing, itself included. -/
class Scalar (α : Type) extends
    Zero α, One α, Add α, Sub α, Mul α, Neg α, Div α, LT α, LE α, BEq α, OfScientific α where
  /-- The strict order can be decided. -/
  decidableLT : DecidableLT α
  /-- The order can be decided. -/
  decidableLE : DecidableLE α

instance instDecidableLTScalar {α : Type} [Scalar α] : DecidableLT α :=
  Scalar.decidableLT

instance instDecidableLEScalar {α : Type} [Scalar α] : DecidableLE α :=
  Scalar.decidableLE

/-- Scalars that can measure lengths and turn directions in the plane. -/
class PlaneScalar (α : Type) extends Scalar α where
  /-- Length of the hypotenuse over the two legs. -/
  hypot : α → α → α
  /-- Cosine of an angle in radians. -/
  cos : α → α
  /-- Sine of an angle in radians. -/
  sin : α → α
  /-- An eighth of a full turn, `π / 4` radians. -/
  eighthTurn : α

namespace Scalar

variable {α : Type} [Scalar α]

/-! ## Derived operations -/

/-- The distance from zero. -/
def abs (x : α) : α :=
  if x < 0 then -x else x

/-- The larger operand; of two operands of which one is not a number, the
other. -/
def max (a b : α) : α :=
  if a < b then b else if a == a then a else b

/-- The smaller operand; of two operands of which one is not a number, the
other. -/
def min (a b : α) : α :=
  if b < a then b else if a == a then a else b

/-- Whether `x` is an ordinary number: what is infinite or not a number does not
vanish when subtracted from itself. -/
def isFinite (x : α) : Bool :=
  x - x == 0

/-- The distance from `1` to the next larger double, `2 ^ -52`. -/
def epsilon : α :=
  1 / 4503599627370496.0

end Scalar

end CameraMotion
