import CameraMotion.Proofs.Transforms
import CameraMotion.Viewport.Mapped
import Mathlib.Tactic.Linarith
import Mathlib.Tactic.FieldSimp

/-!
# The visible area

The visible part of the map plane is described twice: by the map to the pixels, and by a
turned rectangle around the focus.  Both describe one area, in exact arithmetic and for
every positive scale.

Main results:

- Theorem `Viewport.toPixels_toGlobal_globalRect`: where a local point of the visible
  rectangle is shown.
- Theorem `Viewport.contains_globalRect`: what lies in the visible rectangle is shown on
  the pixels, and nothing else.
- Theorem `Viewport.distance_toPixels`: lengths shrink by the scale.
- Theorem `MappedViewport.toPixels_visible`: all of this after any changes of the
  settings.
-/

namespace CameraMotion

namespace Rect

/-- A rectangle contains a point when both coordinates lie between its sides. -/
theorem contains_iff {r : Rect ℝ} {p : Point ℝ} :
    r.contains p = true ↔ (r.origin.x ≤ p.x ∧ p.x ≤ r.origin.x + r.size.width) ∧
      (r.origin.y ≤ p.y ∧ p.y ≤ r.origin.y + r.size.height) := by
  simp [contains, and_assoc]

/-- The center of a rectangle lies half a side away from its origin. -/
theorem center_eq (r : Rect ℝ) :
    r.center = ⟨r.origin.x + r.size.width / 2, r.origin.y + r.size.height / 2⟩ := by
  norm_num [center]

/-- The four corners, around the rectangle from its origin on. -/
def corners (r : Rect ℝ) : List (Point ℝ) :=
  let o := r.origin
  let s := r.size
  [o, ⟨o.x + s.width, o.y⟩, ⟨o.x + s.width, o.y + s.height⟩, ⟨o.x, o.y + s.height⟩]

end Rect

namespace Viewport

variable {v : Viewport ℝ}

/-! ## Where points are shown -/

/-- A global point is shown where its offset from the focus, turned back, scaled and
flipped, leads from the middle of the pixels. -/
theorem toPixels_eq (v : Viewport ℝ) (p : Point ℝ) :
    v.toPixels p =
      ⟨v.pixels.center.x + (Real.cos v.angle * (p.x - v.focus.x) +
          Real.sin v.angle * (p.y - v.focus.y)) / v.scale,
        v.pixels.center.y - (Real.cos v.angle * (p.y - v.focus.y) -
          Real.sin v.angle * (p.x - v.focus.x)) / v.scale⟩ := by
  rw [toPixels, pixelMap]
  ext <;> simp only [Affine.apply_after, Affine.apply_translation, Affine.apply_rotation,
    Affine.apply_scaling, Real.cos_neg, Real.sin_neg] <;> ring

/-- The focus is shown in the middle of the pixels. -/
theorem toPixels_focus (v : Viewport ℝ) : v.toPixels v.focus = v.pixels.center := by
  rw [toPixels_eq]
  ext <;> simp

/-- Lengths shrink by the scale. -/
theorem distance_toPixels (positive : 0 < v.scale) (a b : Point ℝ) :
    (v.toPixels a).distance (v.toPixels b) = a.distance b / v.scale := by
  have unit := Real.cos_sq_add_sin_sq v.angle
  have squares : ((v.toPixels b).x - (v.toPixels a).x) * ((v.toPixels b).x - (v.toPixels a).x) +
      ((v.toPixels b).y - (v.toPixels a).y) * ((v.toPixels b).y - (v.toPixels a).y) =
      ((b.x - a.x) * (b.x - a.x) + (b.y - a.y) * (b.y - a.y)) / (v.scale * v.scale) := by
    rw [toPixels_eq, toPixels_eq]
    linear_combination ((b.x - a.x) ^ 2 + (b.y - a.y) ^ 2) / v.scale ^ 2 * unit
  show √_ = √_ / v.scale
  rw [squares, Real.sqrt_div', Real.sqrt_mul_self positive.le]
  exact mul_self_nonneg v.scale

/-! ## The visible rectangle -/

/-- The visible rectangle lies around the focus, and has the size of the pixels in global
units. -/
theorem rect_globalRect (v : Viewport ℝ) :
    v.globalRect.rect =
      ⟨⟨-(v.pixels.size.width * v.scale / 2), -(v.pixels.size.height * v.scale / 2)⟩,
        ⟨v.pixels.size.width * v.scale, v.pixels.size.height * v.scale⟩⟩ := by
  ext <;> simp only [globalRect, Rect.centered, Rect.scale, Rect.offset, Rect.center,
    Point.offset] <;> norm_num

/-- A local point of the visible rectangle is shown as far from the middle of the pixels
as it lies from the focus, in pixels, and flipped. -/
theorem toPixels_toGlobal_globalRect (v : Viewport ℝ) (l : Point ℝ) :
    v.toPixels (v.globalRect.toGlobal l) =
      ⟨v.pixels.center.x + l.x / v.scale, v.pixels.center.y - l.y / v.scale⟩ := by
  have unit := Real.cos_sq_add_sin_sq v.angle
  rw [toPixels_eq]
  ext <;> simp only [globalRect, OrientedRect.toGlobal, Affine.apply_after,
    Affine.apply_translation, Affine.apply_rotation]
  · linear_combination l.x / v.scale * unit
  · linear_combination -(l.y / v.scale) * unit

/-- A number lies in a stretched interval around zero when its quotient lies in the
interval. -/
private theorem span_iff {scale : ℝ} (positive : 0 < scale) (length x : ℝ) :
    (-(length * scale / 2) ≤ x ∧ x ≤ -(length * scale / 2) + length * scale) ↔
      (-(length / 2) ≤ x / scale ∧ x / scale ≤ length / 2) := by
  rw [le_div_iff₀ positive, div_le_iff₀ positive]
  constructor <;> rintro ⟨low, high⟩ <;> constructor <;> linarith

/-- What lies in the visible rectangle is shown on the pixels, and nothing else. -/
theorem contains_globalRect (positive : 0 < v.scale) (l : Point ℝ) :
    v.globalRect.rect.contains l =
      v.pixels.contains (v.toPixels (v.globalRect.toGlobal l)) := by
  rw [Bool.eq_iff_iff, Rect.contains_iff, Rect.contains_iff, rect_globalRect,
    toPixels_toGlobal_globalRect, Rect.center_eq]
  dsimp only
  rw [span_iff positive, span_iff positive]
  constructor <;> rintro ⟨⟨left, right⟩, low, high⟩ <;>
    refine ⟨⟨?_, ?_⟩, ?_, ?_⟩ <;> linarith

/-- The corners of the visible rectangle are shown in the corners of the pixels.  The
flip turns their order around. -/
theorem map_toPixels_corners (positive : 0 < v.scale) :
    v.globalRect.corners.map v.toPixels = v.pixels.corners.reverse := by
  have whole (x : ℝ) : x * v.scale / v.scale = x := mul_div_cancel_right₀ x positive.ne'
  have half (x : ℝ) : x * v.scale / 2 / v.scale = x / 2 := by
    rw [div_right_comm, whole]
  simp only [OrientedRect.corners, rect_globalRect, List.map_cons, List.map_nil,
    toPixels_toGlobal_globalRect, Rect.center_eq, Rect.corners, List.reverse_cons,
    List.reverse_nil, List.nil_append, List.cons_append, List.cons.injEq, Point.ext_iff,
    add_div, neg_div, whole, half, and_true]
  refine ⟨⟨?_, ?_⟩, ⟨?_, ?_⟩, ⟨?_, ?_⟩, ?_, ?_⟩ <;> ring

end Viewport

/-! ## After any changes -/

namespace MappedViewport

/-- After any changes of the settings that leave a positive scale, the map to the pixels
shows the visible rectangle on the pixels: every local point as far from the middle as it
lies from the focus, what lies in the rectangle and nothing else, its corners in the
corners, and the focus in the middle.  Everywhere, lengths shrink by the scale. -/
theorem toPixels_visible {first : Viewport ℝ} {changes : List (Viewport.Change ℝ)}
    (positive : 0 < (changes.foldl change (ofViewport first)).viewport.scale) :
    let m := changes.foldl change (ofViewport first)
    let pixels := m.viewport.pixels
    let scale := m.viewport.scale
    (∀ l, m.toPixels (m.globalRect.toGlobal l) =
        ⟨pixels.center.x + l.x / scale, pixels.center.y - l.y / scale⟩) ∧
      (∀ l, m.globalRect.rect.contains l =
        pixels.contains (m.toPixels (m.globalRect.toGlobal l))) ∧
      m.globalRect.corners.map m.toPixels = pixels.corners.reverse ∧
      m.toPixels m.viewport.focus = pixels.center ∧
      ∀ a b, (m.toPixels a).distance (m.toPixels b) = a.distance b / scale := by
  rw [foldl_change, viewport_ofViewport] at positive
  rw [foldl_change]
  generalize changes.foldl Viewport.Change.apply first = v at positive
  exact ⟨v.toPixels_toGlobal_globalRect, Viewport.contains_globalRect positive,
    Viewport.map_toPixels_corners positive, v.toPixels_focus,
    Viewport.distance_toPixels positive⟩

/-- A tall strip of pixels, looked at from far away, then turned and moved. -/
noncomputable def turnedStrip : List (Viewport.Change ℝ) :=
  [.pixels ⟨⟨10, 20⟩, ⟨30, 400⟩⟩, .scale 1000, .angle 1, .focus ⟨-5, 7⟩]

/-- On the turned strip the focus is shown in the middle, a corner of the visible
rectangle in a corner, and five thousand units take five pixels in any direction. -/
theorem toPixels_visible_turnedStrip :
    let m := turnedStrip.foldl change (ofViewport .standard)
    m.toPixels ⟨-5, 7⟩ = ⟨25, 220⟩ ∧
      m.toPixels (m.globalRect.toGlobal ⟨15000, 200000⟩) = ⟨40, 20⟩ ∧
      (m.toPixels 0).distance (m.toPixels ⟨3000, 4000⟩) = 5 := by
  intro m
  have settings : m.viewport = ⟨⟨⟨10, 20⟩, ⟨30, 400⟩⟩, ⟨-5, 7⟩, 1, 1000⟩ := rfl
  have positive : 0 < m.viewport.scale := by
    rw [settings]
    norm_num
  rcases toPixels_visible positive with ⟨shown, _, _, middle, distance⟩
  simp only [← show m = turnedStrip.foldl change (ofViewport .standard) from rfl, settings,
    Rect.center_eq] at shown middle distance
  have length : Point.distance 0 (⟨3000, 4000⟩ : Point ℝ) = 5000 := by
    show √((3000 - 0) * (3000 - 0) + (4000 - 0) * (4000 - 0)) = _
    rw [Real.sqrt_eq_iff_mul_self_eq_of_pos (by norm_num)]
    norm_num
  refine ⟨?_, ?_, ?_⟩
  · rw [middle]
    norm_num
  · rw [shown]
    norm_num
  · rw [distance, length]
    norm_num

end MappedViewport

end CameraMotion
