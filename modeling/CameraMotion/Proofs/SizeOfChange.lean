import CameraMotion.Proofs.NaturalDurations
import CameraMotion.Proofs.VisibleArea

/-!
# The size of a change

Natural durations look at how large a change is, and at nothing else.  A move is measured
by its length in pixels against the shorter side of the viewport: it takes as long back as
forth, wherever it starts, in whatever direction it leads, and wherever and at whatever
angle the viewport shows it.  A turn is measured by the angle between its ends, and a zoom
by the ratio of the larger scale factor to the smaller one.

Main results:

- Theorem `Affine.Rigid.distance_apply`: translations and turns of the plane leave distances
  as they are.
- Theorem `Timing.moveDuration_eq`: what a move is measured by.
- Theorems `Timing.zoomRatio_comm` and `Timing.zoomRatio_mul`: what leaves the ratio of two
  scale factors as it is.
- Theorem `Timing.measured_by_size`: equal changes take equal times, and no change takes
  none.
-/

namespace CameraMotion

/-! ## Distances -/

namespace Point

/-- The distance does not depend on the order of the points. -/
theorem distance_comm (a b : Point ℝ) : b.distance a = a.distance b := by
  show √_ = √_
  congr 1
  ring

/-- A point has no distance from itself. -/
@[simp]
theorem distance_self (a : Point ℝ) : a.distance a = 0 := by
  show √_ = _
  simp

end Point

namespace Affine

/-- The maps that are made of translations and turns. -/
inductive Rigid : Affine ℝ → Prop where
  | translation (x y : ℝ) : Rigid (translation x y)
  | rotation (angle : ℝ) : Rigid (rotation angle)
  | after {m n : Affine ℝ} (hm : Rigid m) (hn : Rigid n) : Rigid (m.after n)

/-- A turn around any point is made of translations and a turn around the origin. -/
theorem Rigid.around (center : Point ℝ) (angle : ℝ) :
    Rigid (((Affine.translation center.x center.y).after (Affine.rotation angle)).after
      (Affine.translation (-center.x) (-center.y))) :=
  .after (.after (.translation _ _) (.rotation _)) (.translation _ _)

/-- A rotation keeps distances. -/
theorem distance_rotation (angle : ℝ) (p q : Point ℝ) :
    ((rotation angle).apply p).distance ((rotation angle).apply q) = p.distance q := by
  have unit := Real.cos_sq_add_sin_sq angle
  show √_ = √_
  rw [apply_rotation, apply_rotation]
  congr 1
  linear_combination ((q.x - p.x) ^ 2 + (q.y - p.y) ^ 2) * unit

/-- Translations and turns leave distances as they are. -/
theorem Rigid.distance_apply {m : Affine ℝ} (h : m.Rigid) (p q : Point ℝ) :
    (m.apply p).distance (m.apply q) = p.distance q := by
  induction h generalizing p q with
  | translation x y => simp [Point.distance]
  | rotation angle => exact distance_rotation angle p q
  | after _ _ ihm ihn => rw [apply_after, apply_after, ihm, ihn]

end Affine

/-! ## What durations depend on -/

namespace Timing

variable (t : Timing ℝ)

/-- A move is measured by its length in pixels and the shorter side of the viewport. -/
theorem moveDuration_eq {v : Viewport ℝ} (positive : 0 < v.scale) (start stop : Point ℝ) :
    t.moveDuration start stop v =
      t.lengthDuration (start.distance stop / v.scale) v.pixels.size.minSide := by
  rw [moveDuration, Viewport.distance_toPixels positive, Point.distance_comm]

/-- No length takes no time. -/
theorem lengthDuration_zero (minSide : ℝ) : t.lengthDuration 0 minSide = 0 :=
  if_pos (by norm_num [negligible])

/-- A turn is measured by the angle between its ends. -/
theorem turnDuration_eq (start stop : ℝ) :
    t.turnDuration start stop = t.quarterTurnDuration * |stop - start| / (Real.pi / 4) := by
  rw [turnDuration, Scalar.abs_eq]
  rfl

/-- The ratio of two scale factors does not look at their order. -/
theorem zoomRatio_comm (start stop : ℝ) : zoomRatio stop start = zoomRatio start stop := by
  rcases lt_trichotomy start stop with up | rfl | down
  · rw [zoomRatio, zoomRatio, if_pos up, if_neg up.not_gt]
  · rfl
  · rw [zoomRatio, zoomRatio, if_neg down.not_gt, if_pos down]

/-- The ratio of two scale factors stays when both are multiplied. -/
theorem zoomRatio_mul {k : ℝ} (positive : 0 < k) (start stop : ℝ) :
    zoomRatio (k * start) (k * stop) = zoomRatio start stop := by
  simp only [zoomRatio, mul_lt_mul_iff_right₀ positive, mul_div_mul_left _ _ positive.ne']

/-- A zoom that leads nowhere has the ratio one. -/
theorem zoomRatio_self {scale : ℝ} (positive : 0 < scale) : zoomRatio scale scale = 1 := by
  rw [zoomRatio, if_neg (lt_irrefl scale), div_self positive.ne']

/-- Zooms of the same ratio take the same time. -/
theorem zoomDuration_congr {a b c d : ℝ} (ratio : zoomRatio a b = zoomRatio c d) :
    t.zoomDuration a b = t.zoomDuration c d := by
  rw [zoomDuration, zoomDuration, ratio]

/-- A ratio of one takes no time. -/
theorem zoomDuration_self {scale : ℝ} (positive : 0 < scale) :
    t.zoomDuration scale scale = 0 := by
  rw [zoomDuration, zoomRatio_self positive]
  exact if_pos (by norm_num [Scalar.abs_eq, negligible])

/-! ## The main result -/

/-- A timing measures changes by their size. -/
structure MeasuresSize : Prop where
  /-- Moves of the same length in pixels, on viewports with the same shorter side, take the
  same time. -/
  move : ∀ {v w : Viewport ℝ}, 0 < v.scale → 0 < w.scale → ∀ {a b c d : Point ℝ},
    a.distance b / v.scale = c.distance d / w.scale →
    v.pixels.size.minSide = w.pixels.size.minSide → t.moveDuration a b v = t.moveDuration c d w
  /-- A move takes as long back as forth. -/
  back : ∀ {v : Viewport ℝ}, 0 < v.scale → ∀ a b : Point ℝ,
    t.moveDuration b a v = t.moveDuration a b v
  /-- It takes as long when its ends are translated or turned together. -/
  rigid : ∀ {v : Viewport ℝ}, 0 < v.scale → ∀ {m : Affine ℝ}, m.Rigid → ∀ a b : Point ℝ,
    t.moveDuration (m.apply a) (m.apply b) v = t.moveDuration a b v
  /-- It takes as long when the viewport shows another part of the map plane, at another
  angle, on pixels at another place. -/
  view : ∀ {v : Viewport ℝ}, 0 < v.scale → ∀ (a b focus origin : Point ℝ) (angle : ℝ),
    t.moveDuration a b ⟨⟨origin, v.pixels.size⟩, focus, angle, v.scale⟩ = t.moveDuration a b v
  /-- Turns by the same angle, in whatever direction, take the same time. -/
  turn : ∀ {a b c d : ℝ}, |b - a| = |d - c| → t.turnDuration a b = t.turnDuration c d
  /-- A zoom takes as long out as in. -/
  out : ∀ {a b : ℝ}, 0 < a → 0 < b → t.zoomDuration b a = t.zoomDuration a b
  /-- It takes as long when both scale factors are multiplied. -/
  zoom : ∀ {a b : ℝ}, 0 < a → 0 < b → ∀ {k : ℝ}, 0 < k →
    t.zoomDuration (k * a) (k * b) = t.zoomDuration a b
  /-- What leads nowhere takes no time. -/
  none : (∀ {v : Viewport ℝ}, 0 < v.scale → ∀ a : Point ℝ, t.moveDuration a a v = 0) ∧
    (∀ a, t.turnDuration a a = 0) ∧ ∀ {a : ℝ}, 0 < a → t.zoomDuration a a = 0

/-- Every timing, usable or not, measures changes by their size. -/
theorem measured_by_size : t.MeasuresSize := by
  have move {v w : Viewport ℝ} (hv : 0 < v.scale) (hw : 0 < w.scale) {a b c d : Point ℝ}
      (length : a.distance b / v.scale = c.distance d / w.scale)
      (side : v.pixels.size.minSide = w.pixels.size.minSide) :
      t.moveDuration a b v = t.moveDuration c d w := by
    rw [moveDuration_eq t hv, moveDuration_eq t hw, length, side]
  constructor
  case move => exact move
  case back =>
    intro v hv a b
    exact move hv hv (by rw [Point.distance_comm]) rfl
  case rigid =>
    intro v hv m rigid a b
    exact move hv hv (by rw [rigid.distance_apply]) rfl
  case view =>
    intro v hv a b focus origin angle
    have shown : 0 < (⟨⟨origin, v.pixels.size⟩, focus, angle, v.scale⟩ : Viewport ℝ).scale := hv
    exact move shown hv rfl rfl
  case turn =>
    intro a b c d same
    rw [turnDuration_eq, turnDuration_eq, same]
  case out => exact fun _ _ => t.zoomDuration_congr (zoomRatio_comm _ _)
  case zoom => exact fun _ _ k hk => t.zoomDuration_congr (zoomRatio_mul hk _ _)
  case none =>
    refine ⟨fun hv a => ?_, fun a => ?_, t.zoomDuration_self⟩
    · rw [moveDuration_eq t hv, Point.distance_self, zero_div, lengthDuration_zero]
    · simp [turnDuration_eq]

end Timing

end CameraMotion
