import CameraMotion.Proofs.VisibleArea

/-!
# To the pixels and back

The map to the pixels shrinks areas by the square of the scale.  Once that is less than
what a double resolves beside `1`, the map counts as one that cannot be undone, and
pixels are taken for global points as they stand.  Up to there the two ways undo each
other.

Main results:

- Theorem `Viewport.det_pixelMap`: how much the map to the pixels shrinks areas.
- Theorem `Viewport.inverse?_pixelMap_eq_none_iff`: from which scale on it counts as one
  that cannot be undone.
- Theorem `MappedViewport.undoes_iff`: after any changes of the settings, the two ways
  undo each other exactly up to that scale.
-/

namespace CameraMotion

namespace Viewport

variable {v : Viewport ℝ}

/-- The map to the pixels shrinks areas by the square of the scale, and flips them. -/
theorem det_pixelMap (v : Viewport ℝ) : v.pixelMap.det = -(1 / v.scale ^ 2) := by
  simp only [pixelMap, Affine.det_after, Affine.det_translation, Affine.det_scaling,
    Affine.det_rotation]
  ring

/-- More than `2 ^ 26` global units per pixel are too many to find the way back. -/
theorem inverse?_pixelMap_eq_none_iff (positive : 0 < v.scale) :
    v.pixelMap.inverse? = none ↔ 2 ^ 26 < v.scale := by
  have square : (2 : ℝ) ^ 52 = (2 ^ 26) ^ 2 := by norm_num
  rw [Affine.inverse?_eq_none_iff, det_pixelMap, abs_neg, abs_of_pos (by positivity),
    one_div_lt_one_div (by positivity) (by positivity), square,
    pow_lt_pow_iff_left₀ (by positivity) positive.le two_ne_zero]

/-- From there on pixels are taken for global points as they stand. -/
theorem toGlobal_of_lt (far : 2 ^ 26 < v.scale) (q : Point ℝ) : v.toGlobal q = q := by
  have positive : 0 < v.scale := lt_trans (by positivity) far
  rw [toGlobal, globalMap, (inverse?_pixelMap_eq_none_iff positive).mpr far]
  exact Affine.apply_identity q

/-- Up to there the two ways undo each other. -/
theorem undoes_of_le (positive : 0 < v.scale) (near : v.scale ≤ 2 ^ 26) :
    (∀ p, v.toGlobal (v.toPixels p) = p) ∧ ∀ q, v.toPixels (v.toGlobal q) = q := by
  cases back : v.pixelMap.inverse? with
  | none => exact absurd ((inverse?_pixelMap_eq_none_iff positive).mp back) (not_lt.mpr near)
  | some i =>
      have same : v.globalMap = i := by rw [globalMap, back, Option.getD_some]
      constructor
      · intro p
        rw [toGlobal, same]
        exact Affine.apply_of_inverse? back p
      · intro q
        rw [toGlobal, same]
        exact Affine.of_apply_inverse? back q

/-- Beyond, they do not: a unit is no longer a unit once it has been shown. -/
theorem exists_toGlobal_toPixels_ne (far : 2 ^ 26 < v.scale) :
    ∃ p, v.toGlobal (v.toPixels p) ≠ p := by
  by_contra! undoes
  have positive : 0 < v.scale := lt_trans (by positivity) far
  have still (p : Point ℝ) : v.toPixels p = p := by
    rw [← toGlobal_of_lt far (v.toPixels p), undoes]
  have unit : Point.distance 0 (⟨1, 0⟩ : Point ℝ) = 1 := by
    show √((1 - 0) * (1 - 0) + (0 - 0) * (0 - 0)) = _
    norm_num
  have shrinks := distance_toPixels positive 0 ⟨1, 0⟩
  rw [still, still, unit, eq_div_iff positive.ne', one_mul] at shrinks
  rw [shrinks] at far
  norm_num at far

end Viewport

/-! ## After any changes -/

namespace Viewport.Change

variable {first : Viewport ℝ} {changes : List (Change ℝ)}

/-- Changes that ask for positive scales leave a positive one. -/
theorem scale_foldl_apply_pos (positive : 0 < first.scale)
    (allowed : ∀ x, .scale x ∈ changes → 0 < x) : 0 < (changes.foldl apply first).scale := by
  induction changes generalizing first with
  | nil => exact positive
  | cons c cs ih =>
      refine ih ?_ fun x hx => allowed x (List.mem_cons_of_mem _ hx)
      cases c with
      | scale x => exact allowed x List.mem_cons_self
      | _ => exact positive

end Viewport.Change

namespace MappedViewport

/-- After any changes of the settings, the way to the pixels and the way back undo each
other exactly when a pixel shows no more than `2 ^ 26` global units; when it shows more,
the way back leaves every point where it is. -/
theorem undoes_iff {first : Viewport ℝ} {changes : List (Viewport.Change ℝ)}
    (positive : 0 < first.scale) (allowed : ∀ x, .scale x ∈ changes → 0 < x) :
    let m := changes.foldl change (ofViewport first)
    ((∀ p, m.toGlobal (m.toPixels p) = p) ∧ (∀ q, m.toPixels (m.toGlobal q) = q) ↔
        m.viewport.scale ≤ 2 ^ 26) ∧
      (2 ^ 26 < m.viewport.scale → ∀ q, m.toGlobal q = q) := by
  have positive := Viewport.Change.scale_foldl_apply_pos positive allowed
  rw [foldl_change]
  generalize changes.foldl Viewport.Change.apply first = v at positive
  refine ⟨⟨fun undoes => ?_, Viewport.undoes_of_le positive⟩, Viewport.toGlobal_of_lt⟩
  by_contra! far
  rcases Viewport.exists_toGlobal_toPixels_ne far with ⟨p, moved⟩
  exact moved (undoes.1 p)

/-- On the turned strip the two ways undo each other. -/
theorem undoes_iff_turnedStrip :
    let m := turnedStrip.foldl change (ofViewport .standard)
    (∀ p, m.toGlobal (m.toPixels p) = p) ∧ ∀ q, m.toPixels (m.toGlobal q) = q := by
  intro m
  have positive : 0 < (Viewport.standard : Viewport ℝ).scale := by
    simp [Viewport.standard, Viewport.ofPixelSize]
  have allowed : ∀ x, .scale x ∈ turnedStrip → 0 < x := by simp [turnedStrip]
  refine (undoes_iff positive allowed).1.mpr ?_
  show (1000 : ℝ) ≤ 2 ^ 26
  norm_num

/-- A view in which a pixel shows `2 ^ 27` global units. -/
noncomputable def wideView : List (Viewport.Change ℝ) :=
  [.scale 134217728]

/-- In the wide view the global origin is shown in the middle of the pixels, and that
pixel is taken for the global point with the same coordinates. -/
theorem not_undoes_wideView :
    0 < (Viewport.ofPixelSize 200 100 : Viewport ℝ).scale ∧
      (∀ x, .scale x ∈ wideView → 0 < x) ∧
      let m := wideView.foldl change (ofViewport (.ofPixelSize 200 100))
      m.toPixels 0 = ⟨100, 50⟩ ∧ m.toGlobal (m.toPixels 0) = ⟨100, 50⟩ ∧
        m.toGlobal (m.toPixels 0) ≠ 0 := by
  refine ⟨by simp [Viewport.ofPixelSize], by simp [wideView], ?_⟩
  rw [foldl_change]
  intro m
  have far : (2 : ℝ) ^ 26 < 134217728 := by norm_num
  have middle : m.toPixels 0 = ⟨100, 50⟩ := by
    refine (Viewport.toPixels_focus _).trans ?_
    rw [Rect.center_eq]
    show (⟨0 + 200 / 2, 0 + 100 / 2⟩ : Point ℝ) = _
    norm_num
  have back : m.toGlobal ⟨100, 50⟩ = ⟨100, 50⟩ := Viewport.toGlobal_of_lt far _
  rw [middle, back]
  refine ⟨rfl, rfl, fun same => ?_⟩
  have : (100 : ℝ) = 0 := congrArg Point.x same
  norm_num at this

end MappedViewport

end CameraMotion
