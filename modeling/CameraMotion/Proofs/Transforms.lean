import CameraMotion.Scalar.Real
import CameraMotion.Plane.Affine

/-!
# Affine maps as maps

What composition and inversion of matrices mean for the points that they are applied to,
in exact arithmetic.

Main results:

- Theorem `Affine.apply_after`: a composition applies one map after the other.
- Theorem `Affine.det_after`: areas are enlarged by both.
- Theorem `Affine.inverse?_eq_none_iff`: a map has no inverse exactly when it shrinks
  areas below the resolution of a double.
- Theorems `Affine.apply_of_inverse?` and `Affine.of_apply_inverse?`: an inverse undoes
  the map, and the map undoes its inverse.
-/

namespace CameraMotion

/-- The distance from `1` to the next larger double. -/
theorem Scalar.epsilon_eq : (Scalar.epsilon : ℝ) = 1 / 2 ^ 52 := by
  norm_num [Scalar.epsilon]

namespace Affine

/-! ## Application -/

/-- The identity moves no point. -/
@[simp]
theorem apply_identity (p : Point ℝ) : identity.apply p = p := by
  simp [identity, apply]

/-- A translation moves a point by its two lengths. -/
@[simp]
theorem apply_translation (x y : ℝ) (p : Point ℝ) :
    (translation x y).apply p = ⟨p.x + x, p.y + y⟩ := by
  simp [translation, apply]

/-- A scaling stretches a point along both axes. -/
@[simp]
theorem apply_scaling (sx sy : ℝ) (p : Point ℝ) :
    (scaling sx sy).apply p = ⟨sx * p.x, sy * p.y⟩ := by
  simp [scaling, apply]

/-- A rotation turns a point around the origin. -/
@[simp]
theorem apply_rotation (angle : ℝ) (p : Point ℝ) :
    (rotation angle).apply p =
      ⟨Real.cos angle * p.x - Real.sin angle * p.y,
        Real.sin angle * p.x + Real.cos angle * p.y⟩ := by
  simp [rotation, apply, PlaneScalar.cos, PlaneScalar.sin, sub_eq_add_neg]

/-- A composition applies one map after the other. -/
@[simp]
theorem apply_after (m n : Affine ℝ) (p : Point ℝ) :
    (m.after n).apply p = m.apply (n.apply p) := by
  ext <;> simp only [apply, after] <;> ring

/-! ## Areas -/

/-- A translation keeps areas. -/
@[simp]
theorem det_translation (x y : ℝ) : (translation x y).det = 1 := by
  simp [translation, det]

/-- A scaling stretches areas by both factors. -/
@[simp]
theorem det_scaling (sx sy : ℝ) : (scaling sx sy).det = sx * sy := by
  simp [scaling, det]

/-- A turn leaves areas as they are. -/
@[simp]
theorem det_rotation (angle : ℝ) : (rotation angle).det = 1 := by
  have unit := Real.cos_sq_add_sin_sq angle
  simp only [rotation, det, PlaneScalar.cos, PlaneScalar.sin]
  linarith

/-- A composition enlarges areas by both factors. -/
@[simp]
theorem det_after (m n : Affine ℝ) : (m.after n).det = m.det * n.det := by
  simp only [det, after]
  ring

/-! ## Inversion -/

/-- A map has no inverse exactly when it shrinks areas too much. -/
theorem inverse?_eq_none_iff {m : Affine ℝ} : m.inverse? = none ↔ |m.det| < 1 / 2 ^ 52 := by
  rw [← Scalar.epsilon_eq, ← Scalar.abs_eq]
  simp [inverse?]

/-- An inverse is made with the reciprocal of the determinant. -/
theorem exists_of_inverse? {m i : Affine ℝ} (h : m.inverse? = some i) :
    ∃ inv, inv * m.det = 1 ∧
      i = ⟨m.d * inv, -m.b * inv, -m.c * inv, m.a * inv,
        -(m.d * inv * m.tx + -m.c * inv * m.ty), -(-m.b * inv * m.tx + m.a * inv * m.ty)⟩ := by
  have steep : m.det ≠ 0 := by
    intro flat
    have none : m.inverse? = none := by
      rw [inverse?_eq_none_iff, flat]
      norm_num
    rw [none] at h
    simp at h
  unfold inverse? at h
  split at h
  · simp at h
  · exact ⟨1 / m.det, one_div_mul_cancel steep, (Option.some.inj h).symm⟩

/-- An inverse undoes the map. -/
theorem apply_of_inverse? {m i : Affine ℝ} (h : m.inverse? = some i) (p : Point ℝ) :
    i.apply (m.apply p) = p := by
  rcases exists_of_inverse? h with ⟨inv, unit, rfl⟩
  rw [det] at unit
  ext <;> simp only [apply]
  · linear_combination p.x * unit
  · linear_combination p.y * unit

/-- The map undoes its inverse. -/
theorem of_apply_inverse? {m i : Affine ℝ} (h : m.inverse? = some i) (p : Point ℝ) :
    m.apply (i.apply p) = p := by
  rcases exists_of_inverse? h with ⟨inv, unit, rfl⟩
  rw [det] at unit
  ext <;> simp only [apply]
  · linear_combination (p.x - m.tx) * unit
  · linear_combination (p.y - m.ty) * unit

end Affine

end CameraMotion
