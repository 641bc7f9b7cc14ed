import CameraMotion.Scalar.Real

/-!
# Real numbers with checked division

Among the real numbers a quotient by zero is a number like any other.  Here it is not
defined, and neither is what is worked out from it: a result that is defined was worked
out without dividing by zero.

A comparison comes out one way or the other, also when a side of it is not defined.  The
type leaves open which way, and takes it as a parameter; what holds for both ways does not
depend on such a comparison.

Main results:

- Theorem `Checked.number_div`: a quotient is defined unless the divisor is zero.
- Theorems `Checked.number_max`, `Checked.number_min` and `Checked.number_abs`: the derived
  operations do not divide.
-/

namespace CameraMotion

/-- A real number, or what a division by zero leaves.  A comparison in which a side is not
defined comes out as `guess`. -/
inductive Checked (guess : Bool) where
  /-- A number. -/
  | number (x : ℝ)
  /-- No number. -/
  | undefined

namespace Checked

variable {guess : Bool}

/-! ## Operations -/

/-- An operation on numbers; undefined otherwise. -/
def map (op : ℝ → ℝ) : Checked guess → Checked guess
  | number x => number (op x)
  | undefined => undefined

/-- An operation on two numbers; undefined otherwise. -/
def map₂ (op : ℝ → ℝ → ℝ) : Checked guess → Checked guess → Checked guess
  | number x, number y => number (op x y)
  | _, _ => undefined

/-- The quotient of two numbers; undefined when the divisor is zero. -/
noncomputable def divide : Checked guess → Checked guess → Checked guess
  | number x, number y => if y = 0 then undefined else number (x / y)
  | _, _ => undefined

/-- A comparison of two numbers; a guess otherwise. -/
def compare (r : ℝ → ℝ → Prop) : Checked guess → Checked guess → Prop
  | number x, number y => r x y
  | _, _ => guess = true

open Classical in
noncomputable instance : Scalar (Checked guess) where
  zero := number 0
  one := number 1
  add := map₂ (· + ·)
  sub := map₂ (· - ·)
  mul := map₂ (· * ·)
  neg := map (- ·)
  div := divide
  lt := compare (· < ·)
  le := compare (· ≤ ·)
  beq a b := decide (compare (· = ·) a b)
  ofScientific mantissa negative exponent :=
    number (OfScientific.ofScientific mantissa negative exponent)
  decidableLT := inferInstance
  decidableLE := inferInstance

noncomputable instance : PlaneScalar (Checked guess) where
  hypot := map₂ PlaneScalar.hypot
  cos := map Real.cos
  sin := map Real.sin
  eighthTurn := number PlaneScalar.eighthTurn

/-! ## Operations on numbers -/

variable (x y : ℝ)

/-- Zero is the number zero. -/
@[simp] theorem zero_eq : (0 : Checked guess) = number 0 :=
  rfl

/-- One is the number one. -/
@[simp] theorem one_eq : (1 : Checked guess) = number 1 :=
  rfl

/-- A literal is the number that it stands for. -/
@[simp] theorem literal_eq (mantissa : Nat) (negative : Bool) (exponent : Nat) :
    (OfScientific.ofScientific mantissa negative exponent : Checked guess) =
      number (OfScientific.ofScientific mantissa negative exponent) :=
  rfl

/-- A sum of numbers is a number. -/
@[simp] theorem number_add : (number x + number y : Checked guess) = number (x + y) :=
  rfl

/-- A difference of numbers is a number. -/
@[simp] theorem number_sub : (number x - number y : Checked guess) = number (x - y) :=
  rfl

/-- A product of numbers is a number. -/
@[simp] theorem number_mul : (number x * number y : Checked guess) = number (x * y) :=
  rfl

/-- The negative of a number is a number. -/
@[simp] theorem number_neg : (-number x : Checked guess) = number (-x) :=
  rfl

/-- The hypotenuse over two numbers is a number. -/
@[simp] theorem number_hypot :
    (PlaneScalar.hypot (number x) (number y) : Checked guess) = number (PlaneScalar.hypot x y) :=
  rfl

/-- Numbers are below each other as the reals are. -/
@[simp] theorem number_lt : (number x < (number y : Checked guess)) ↔ x < y :=
  Iff.rfl

/-- Numbers are ordered as the reals are. -/
@[simp] theorem number_le : (number x ≤ (number y : Checked guess)) ↔ x ≤ y :=
  Iff.rfl

/-- Numbers are equal as the reals are. -/
@[simp] theorem number_beq : (number x == (number y : Checked guess)) = (x == y) := by
  show decide (x = y) = _
  rw [beq_eq_decide]

/-- A quotient is defined unless the divisor is zero. -/
theorem number_div :
    (number x / number y : Checked guess) = if y = 0 then undefined else number (x / y) :=
  rfl

variable {x y} in
/-- A quotient by a number other than zero is a number. -/
@[simp] theorem number_div_of_ne_zero (h : y ≠ 0) :
    (number x / number y : Checked guess) = number (x / y) := by
  rw [number_div, if_neg h]

/-! ## Derived operations -/

/-- The larger one of two numbers is a number. -/
@[simp] theorem number_max :
    (Scalar.max (number x) (number y) : Checked guess) = number (Max.max x y) := by
  rw [← Scalar.max_eq, Scalar.max, Scalar.max]
  simp only [number_lt, number_beq]
  split_ifs <;> rfl

/-- The smaller one of two numbers is a number. -/
@[simp] theorem number_min :
    (Scalar.min (number x) (number y) : Checked guess) = number (Min.min x y) := by
  rw [← Scalar.min_eq, Scalar.min, Scalar.min]
  simp only [number_lt, number_beq]
  split_ifs <;> rfl

/-- The distance of a number from zero is a number. -/
@[simp] theorem number_abs : (Scalar.abs (number x) : Checked guess) = number |x| := by
  rw [← Scalar.abs_eq, Scalar.abs, Scalar.abs]
  simp only [zero_eq, number_lt, number_neg]
  split_ifs <;> rfl

end Checked

end CameraMotion
