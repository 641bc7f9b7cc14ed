import Mathlib.Analysis.Complex.Trigonometric
import Mathlib.Analysis.Real.Pi.Bounds
import CameraMotion.Scalar

/-!
# Real numbers as scalars

The instance over which the arithmetic of the library is exact.  Nothing runs on it; it
is there to say what the same definitions compute when no digit is lost.

Main results:

- Theorems `Scalar.max_eq`, `Scalar.min_eq` and `Scalar.abs_eq`: the derived operations
  are those of an ordered field.
-/

namespace CameraMotion

noncomputable instance : Scalar ℝ where
  decidableLT := inferInstance
  decidableLE := inferInstance

noncomputable instance : PlaneScalar ℝ where
  hypot x y := √(x * x + y * y)
  cos := Real.cos
  sin := Real.sin
  eighthTurn := Real.pi / 4

namespace Scalar

/-- The larger of two real numbers. -/
@[simp]
theorem max_eq (a b : ℝ) : Scalar.max a b = Max.max a b := by
  rw [Scalar.max]
  split_ifs with h h'
  · exact (max_eq_right (le_of_lt h)).symm
  · exact (max_eq_left (not_lt.mp h)).symm
  · exact absurd (beq_self_eq_true a) h'

/-- The smaller of two real numbers. -/
@[simp]
theorem min_eq (a b : ℝ) : Scalar.min a b = Min.min a b := by
  rw [Scalar.min]
  split_ifs with h h'
  · exact (min_eq_right (le_of_lt h)).symm
  · exact (min_eq_left (not_lt.mp h)).symm
  · exact absurd (beq_self_eq_true a) h'

/-- The distance of a real number from zero. -/
@[simp]
theorem abs_eq (a : ℝ) : Scalar.abs a = |a| := by
  rw [Scalar.abs]
  split_ifs with h
  · exact (abs_of_neg h).symm
  · exact (abs_of_nonneg (not_lt.mp h)).symm

end Scalar

end CameraMotion
