import CameraMotion.Plane.Point
import CameraMotion.Scalar.Real
import Mathlib.Order.Interval.Set.UnorderedInterval
import Mathlib.Tactic.Linarith

/-!
# The straight way

A number or a point that is led to an end goes there straight.  Whatever share of the way
is behind it, the rest of the way is a straight one to the same end, so going on never
leads back.

Main results:

- Theorem `Lerp.between_lerp_lerp`: a larger share of the way lies between a smaller one and
  the end.
- Theorem `Scalar.between_iff`: among numbers, to lie between is to lie in the interval.
-/

namespace CameraMotion

/-- All the way between two numbers leads to the second one. -/
theorem Scalar.lerp_one (a b : ℝ) : lerp a b (1 : ℝ) = b := by
  show a + (b - a) * 1 = b
  ring

/-- All the way between two points leads to the second one. -/
theorem Point.lerp_one (a b : Point ℝ) : lerp a b (1 : ℝ) = b :=
  Point.ext (Scalar.lerp_one a.x b.x) (Scalar.lerp_one a.y b.y)

/-- The way from one value to another is straight. -/
class LawfulLerp (β : Type) [Lerp ℝ β] : Prop where
  /-- It begins at the one value. -/
  lerp_zero (a b : β) : lerp a b (0 : ℝ) = a
  /-- It ends at the other. -/
  lerp_one (a b : β) : lerp a b (1 : ℝ) = b
  /-- What is left of it is the way from where one is. -/
  lerp_lerp (a b : β) (s t : ℝ) : lerp (lerp a b s) b t = lerp a b (s + (1 - s) * t)

instance : LawfulLerp ℝ where
  lerp_zero a b := show a + (b - a) * 0 = a by ring
  lerp_one := Scalar.lerp_one
  lerp_lerp a b s t :=
    show a + (b - a) * s + (b - (a + (b - a) * s)) * t = a + (b - a) * (s + (1 - s) * t) by ring

instance : LawfulLerp (Point ℝ) where
  lerp_zero a b := Point.ext (LawfulLerp.lerp_zero a.x b.x) (LawfulLerp.lerp_zero a.y b.y)
  lerp_one := Point.lerp_one
  lerp_lerp a b s t :=
    Point.ext (LawfulLerp.lerp_lerp a.x b.x s t) (LawfulLerp.lerp_lerp a.y b.y s t)

namespace Lerp

variable {β : Type} [Lerp ℝ β]

/-- The value in the middle lies on the straight way from the first to the last. -/
def Between (a x b : β) : Prop :=
  ∃ t : ℝ, 0 ≤ t ∧ t ≤ 1 ∧ lerp a b t = x

variable {a b : β} {s t : ℝ}

variable [LawfulLerp β]

/-- A larger share of the way lies between a smaller one and the end. -/
theorem between_lerp_lerp (more : s ≤ t) (share : t ≤ 1) :
    Between (lerp a b s) (lerp a b t) b := by
  rcases (more.trans share).eq_or_lt with rfl | left
  · refine ⟨0, le_rfl, zero_le_one, ?_⟩
    rw [LawfulLerp.lerp_zero, le_antisymm share more]
  · have rest : 0 < 1 - s := sub_pos.mpr left
    refine ⟨(t - s) / (1 - s), div_nonneg (sub_nonneg.mpr more) rest.le, ?_, ?_⟩
    · exact (div_le_one rest).mpr (sub_le_sub_right share s)
    · rw [LawfulLerp.lerp_lerp, mul_div_cancel₀ _ rest.ne', add_sub_cancel]

end Lerp

/-- Among numbers, to lie between is to lie in the interval. -/
theorem Scalar.between_iff {a x b : ℝ} : Lerp.Between a x b ↔ x ∈ Set.uIcc a b := by
  constructor
  · rintro ⟨t, nonneg, share, rfl⟩
    show a + (b - a) * t ∈ Set.uIcc a b
    rw [Set.mem_uIcc]
    rcases le_total a b with up | down
    · exact .inl ⟨by nlinarith, by nlinarith⟩
    · exact .inr ⟨by nlinarith, by nlinarith⟩
  · intro inside
    rcases eq_or_ne a b with rfl | differ
    · rw [Set.uIcc_self, Set.mem_singleton_iff] at inside
      exact ⟨0, le_rfl, zero_le_one, by rw [LawfulLerp.lerp_zero, inside]⟩
    · refine ⟨(x - a) / (b - a), ?_, ?_, ?_⟩
      · rcases Set.mem_uIcc.mp inside with ⟨low, high⟩ | ⟨low, high⟩
        · exact div_nonneg (by linarith) (by linarith)
        · exact div_nonneg_of_nonpos (by linarith) (by linarith)
      · rcases Set.mem_uIcc.mp inside with ⟨low, high⟩ | ⟨low, high⟩
        · exact div_le_one_of_le₀ (by linarith) (by linarith)
        · exact div_le_one_of_ge (by linarith) (by linarith)
      · show a + (b - a) * ((x - a) / (b - a)) = x
        rw [mul_div_cancel₀ _ (sub_ne_zero.mpr differ.symm), add_sub_cancel]

/-- A point that lies between two others does so in both coordinates. -/
theorem Point.between_coordinates {a x b : Point ℝ} (h : Lerp.Between a x b) :
    x.x ∈ Set.uIcc a.x b.x ∧ x.y ∈ Set.uIcc a.y b.y := by
  rcases h with ⟨t, nonneg, share, rfl⟩
  exact ⟨Scalar.between_iff.mp ⟨t, nonneg, share, rfl⟩,
    Scalar.between_iff.mp ⟨t, nonneg, share, rfl⟩⟩

end CameraMotion
