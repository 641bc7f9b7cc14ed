import CameraMotion.Decimal.Basic
import CameraMotion.Scalar

/-!
# Doubles as scalars

The instance that makes the library run: arithmetic, order and literals are
those of doubles.  Lengths are computed exactly and rounded once, so no leg is
too large or too small to be squared.
-/

namespace CameraMotion

/-! ## Integer square roots -/

/-- The integer square root, from the root of a quarter of the number. -/
def integerSqrt (n : Nat) : Nat :=
  if n = 0 then 0
  else
    let root := 2 * integerSqrt (n / 4)
    if (root + 1) * (root + 1) ≤ n then root + 1 else root
termination_by n

/-! ## The length of a hypotenuse -/

/-- How many binary digits of a root are kept: more than a double holds, so that
the last one only has to say whether the root was exact. -/
def rootBits : Nat :=
  64

/-- The double nearest to `√square · 2 ^ exponent`.  The root is extended by an
odd last digit when it is not exact, which keeps it off every tie. -/
def nearestRoot (square : Nat) (exponent : Int) : Float :=
  let scaled := square * Nat.pow 4 rootBits
  let root := integerSqrt scaled
  let sticky := if root * root = scaled then 0 else 1
  nearestFloat (2 * root + sticky) (exponent - rootBits - 1)

/-- The length of the hypotenuse over two legs, rounded once.  An infinite leg
makes it infinite, even beside one that is not a number. -/
def hypotenuse (x y : Float) : Float :=
  match Magnitude.ofFloat x, Magnitude.ofFloat y with
  | .infinite _, _ => 1.0 / 0.0
  | _, .infinite _ => 1.0 / 0.0
  | .nan, _ => x
  | _, .nan => y
  | .finite _ a p, .finite _ b q =>
      let exponent := if p ≤ q then p else q
      let a := a * Nat.pow 2 (p - exponent).toNat
      let b := b * Nat.pow 2 (q - exponent).toNat
      nearestRoot (a * a + b * b) exponent

/-! ## The instance -/

instance : Scalar Float where
  zero := 0.0
  one := 1.0
  decidableLT := inferInstance
  decidableLE := inferInstance

instance : PlaneScalar Float where
  hypot := hypotenuse
  cos := Float.cos
  sin := Float.sin
  eighthTurn := 0.7853981633974483

end CameraMotion
