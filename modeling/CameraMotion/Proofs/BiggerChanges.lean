import CameraMotion.Proofs.SizeOfChange

/-!
# Bigger changes

A turn takes the longer the further it leads, and a zoom the longer the larger the ratio of
its scale factors is.  Moves make one exception.  A short one takes a fixed time, a long one
goes at a speed, and nothing ties the two: a move that is just long enough to go at the speed
may be over before the fixed time has passed.  With the standard timing this is so.

Main results:

- Theorem `Timing.lengthDuration_le_iff`: a longer length takes at least as long, unless it is
  a long one that overtakes a short one.
- Theorem `Timing.exists_overtakes_iff`: where this happens.
- Theorem `Timing.turnDuration_mono`: a turn by a larger angle takes at least as long.
- Theorem `Timing.zoomDuration_mono`: so does a zoom of a larger ratio.
- Theorem `Timing.bigger_takes_longer`: all of this for moves, turns and zooms.
- Theorem `Timing.not_longer_oblong`: with the standard timing a move over 210 pixels may take
  less time than one over 100.
-/

namespace CameraMotion

namespace Viewport

/-- Global points may be any number of pixels apart. -/
theorem pixelDistance_step {v : Viewport ℝ} (positive : 0 < v.scale) {length : ℝ}
    (nonneg : 0 ≤ length) : v.pixelDistance 0 ⟨length * v.scale, 0⟩ = length := by
  rw [pixelDistance, distance_toPixels positive, Point.distance_comm, div_eq_iff positive.ne']
  show √((length * v.scale - 0) * (length * v.scale - 0) + (0 - 0) * (0 - 0)) = _
  rw [sub_zero, sub_zero, mul_zero, add_zero,
    Real.sqrt_mul_self (mul_nonneg nonneg positive.le)]

end Viewport

namespace Timing

variable {t : Timing ℝ}

/-! ## Lengths -/

/-- A length that counts, and takes the fixed time. -/
def Short (t : Timing ℝ) (minSide length : ℝ) : Prop :=
  negligible ≤ length ∧ length < t.minSpeedScalar * minSide

/-- A length that counts, and is covered at the speed. -/
def Long (t : Timing ℝ) (minSide length : ℝ) : Prop :=
  negligible ≤ length ∧ t.minSpeedScalar * minSide ≤ length

/-- A long length overtakes a short one when at the speed it is covered within the fixed
time. -/
def Overtakes (t : Timing ℝ) (minSide long short : ℝ) : Prop :=
  t.Long minSide long ∧ t.Short minSide short ∧
    long / (t.maxSpeedScalar * minSide) < t.minMoveDuration

section

variable {minSide length : ℝ}

/-- A length is negligible, or short, or long. -/
theorem negligible_or_short_or_long (t : Timing ℝ) (minSide length : ℝ) :
    length < negligible ∨ t.Short minSide length ∨ t.Long minSide length := by
  rcases lt_or_ge length negligible with tiny | counts
  · exact .inl tiny
  · rcases lt_or_ge length (t.minSpeedScalar * minSide) with short | long
    · exact .inr (.inl ⟨counts, short⟩)
    · exact .inr (.inr ⟨counts, long⟩)

/-- A negligible length takes no time. -/
theorem lengthDuration_of_lt_negligible (t : Timing ℝ) (minSide : ℝ)
    (tiny : length < negligible) : t.lengthDuration length minSide = 0 :=
  if_pos tiny

/-- A short length takes the shortest time of a move. -/
theorem Short.lengthDuration_eq (h : t.Short minSide length) :
    t.lengthDuration length minSide = t.minMoveDuration := by
  rw [lengthDuration, if_neg h.1.not_gt, if_pos h.2]

/-- A long length takes its time at the highest speed. -/
theorem Long.lengthDuration_eq (h : t.Long minSide length) :
    t.lengthDuration length minSide = length / (t.maxSpeedScalar * minSide) := by
  have counts : negligible ≤ |length| := h.1.trans (le_abs_self length)
  have nonneg : 0 ≤ length := le_trans (by norm_num [negligible]) h.1
  rw [lengthDuration, if_neg h.1.not_gt, if_neg h.2.not_gt, speedDuration, Scalar.abs_eq,
    if_neg counts.not_gt, abs_of_nonneg nonneg]

/-- No length is long and short. -/
theorem Long.not_short (h : t.Long minSide length) : ¬t.Short minSide length :=
  fun short => short.2.not_ge h.2

/-- What is longer than a long length is long. -/
theorem Long.mono {longer : ℝ} (h : t.Long minSide length) (le : length ≤ longer) :
    t.Long minSide longer :=
  ⟨h.1.trans le, h.2.trans le⟩

end

variable {minSide : ℝ}

/-- A longer length takes at least as long, unless it overtakes the other. -/
theorem lengthDuration_le_iff (usable : t.invalidField? = none) (extent : 0 < minSide)
    {length longer : ℝ} (le : length ≤ longer) :
    t.lengthDuration length minSide ≤ t.lengthDuration longer minSide ↔
      ¬t.Overtakes minSide longer length := by
  have speed : 0 < t.maxSpeedScalar := pos_of_usable usable .maxSpeedScalar
  rcases t.negligible_or_short_or_long minSide length with tiny | short | long
  · rw [t.lengthDuration_of_lt_negligible minSide tiny]
    exact iff_of_true (lengthDuration_nonneg usable longer extent.le)
      fun ⟨_, short, _⟩ => short.1.not_gt tiny
  · rcases t.negligible_or_short_or_long minSide longer with tiny' | short' | long'
    · exact absurd (le.trans_lt tiny') short.1.not_gt
    · rw [short.lengthDuration_eq, short'.lengthDuration_eq]
      exact iff_of_true le_rfl fun ⟨long', _⟩ => long'.not_short short'
    · rw [short.lengthDuration_eq, long'.lengthDuration_eq, ← not_lt]
      exact not_congr ⟨fun early => ⟨long', short, early⟩, fun overtakes => overtakes.2.2⟩
  · rw [long.lengthDuration_eq, (long.mono le).lengthDuration_eq]
    exact iff_of_true (div_le_div_of_nonneg_right le (mul_pos speed extent).le)
      fun ⟨_, short, _⟩ => long.not_short short

/-- Some length is overtaken exactly when there are short lengths, and the shortest of the long
ones is covered within the fixed time. -/
theorem exists_overtakes_iff (usable : t.invalidField? = none) (extent : 0 < minSide) :
    (∃ length longer, length ≤ longer ∧ t.Overtakes minSide longer length) ↔
      negligible < t.minSpeedScalar * minSide ∧
        t.minSpeedScalar / t.maxSpeedScalar < t.minMoveDuration := by
  have speed : 0 < t.maxSpeedScalar := pos_of_usable usable .maxSpeedScalar
  have border : t.minSpeedScalar * minSide / (t.maxSpeedScalar * minSide) =
      t.minSpeedScalar / t.maxSpeedScalar := mul_div_mul_right _ _ extent.ne'
  constructor
  · rintro ⟨length, longer, _, long, short, early⟩
    refine ⟨short.1.trans_lt short.2, lt_of_le_of_lt ?_ early⟩
    rw [← border]
    exact div_le_div_of_nonneg_right long.2 (mul_pos speed extent).le
  · rintro ⟨room, early⟩
    exact ⟨negligible, _, room.le, ⟨room.le, le_rfl⟩, ⟨le_rfl, room⟩, border.trans_lt early⟩

/-! ## Turns -/

/-- A turn by a larger angle takes at least as long. -/
theorem turnDuration_mono (usable : t.invalidField? = none) {a b c d : ℝ}
    (le : |b - a| ≤ |d - c|) : t.turnDuration a b ≤ t.turnDuration c d := by
  have turn : 0 < t.quarterTurnDuration := pos_of_usable usable .quarterTurnDuration
  rw [turnDuration_eq, turnDuration_eq]
  gcongr

/-! ## Zooms -/

/-- The ratio of a zoom is that of the larger to the smaller scale. -/
theorem zoomRatio_eq (start stop : ℝ) : zoomRatio start stop = max start stop / min start stop := by
  rw [zoomRatio]
  split_ifs with down
  · rw [max_eq_left down.le, min_eq_right down.le]
  · rw [max_eq_right (not_lt.mp down), min_eq_left (not_lt.mp down)]

/-- The ratio of a zoom is never below one. -/
theorem one_le_zoomRatio {start stop : ℝ} (far : 0 < start) (near : 0 < stop) :
    1 ≤ zoomRatio start stop := by
  rw [zoomRatio_eq, one_le_div (lt_min far near)]
  exact min_le_max

/-- A zoom between scale factors above zero takes its ratio at the speed, unless the ratio is
next to one. -/
theorem zoomDuration_eq (t : Timing ℝ) {start stop : ℝ} (far : 0 < start) (near : 0 < stop) :
    t.zoomDuration start stop =
      if zoomRatio start stop - 1 < negligible then 0 else zoomRatio start stop / t.zoomSpeed := by
  have large : 1 ≤ zoomRatio start stop := one_le_zoomRatio far near
  have counts : negligible ≤ zoomRatio start stop := le_trans (by norm_num [negligible]) large
  simp only [zoomDuration, speedDuration, Scalar.abs_eq, abs_of_nonneg (sub_nonneg.mpr large),
    abs_of_nonneg (zero_le_one.trans large), if_neg counts.not_gt]

/-- A zoom of a larger ratio takes at least as long. -/
theorem zoomDuration_mono (usable : t.invalidField? = none) {a b c d : ℝ} (ha : 0 < a)
    (hb : 0 < b) (hc : 0 < c) (hd : 0 < d) (le : max a b / min a b ≤ max c d / min c d) :
    t.zoomDuration a b ≤ t.zoomDuration c d := by
  have speed : 0 < t.zoomSpeed := pos_of_usable usable .zoomSpeed
  rw [← zoomRatio_eq, ← zoomRatio_eq] at le
  rw [zoomDuration_eq t ha hb]
  split_ifs with tiny
  · exact zoomDuration_nonneg usable c d
  · have counts : ¬zoomRatio c d - 1 < negligible := by linarith
    rw [zoomDuration_eq t hc hd, if_neg counts]
    exact div_le_div_of_nonneg_right le speed.le

/-! ## The main result -/

/-- Bigger changes take at least as long.  Of two moves on a viewport the longer one does,
unless it is a long one that overtakes a short one, and there are such moves exactly when
lengths below the least long one count and this one is covered within the fixed time.  Of two
turns the one by the larger angle does, and of two zooms the one of the larger ratio. -/
theorem bigger_takes_longer (usable : t.invalidField? = none) {v : Viewport ℝ}
    (positive : 0 < v.scale) (wide : 0 < v.pixels.size.width) (high : 0 < v.pixels.size.height) :
    (∀ {a b c d : Point ℝ}, v.pixelDistance a b ≤ v.pixelDistance c d →
      (t.moveDuration a b v ≤ t.moveDuration c d v ↔
        ¬t.Overtakes v.pixels.size.minSide (v.pixelDistance c d) (v.pixelDistance a b))) ∧
    ((∀ {a b c d : Point ℝ}, v.pixelDistance a b ≤ v.pixelDistance c d →
        t.moveDuration a b v ≤ t.moveDuration c d v) ↔
      t.minSpeedScalar * v.pixels.size.minSide ≤ negligible ∨
        t.minMoveDuration ≤ t.minSpeedScalar / t.maxSpeedScalar) ∧
    (∀ {a b c d : ℝ}, |b - a| ≤ |d - c| → t.turnDuration a b ≤ t.turnDuration c d) ∧
    ∀ {a b c d : ℝ}, 0 < a → 0 < b → 0 < c → 0 < d →
      max a b / min a b ≤ max c d / min c d → t.zoomDuration a b ≤ t.zoomDuration c d := by
  have extent : 0 < v.pixels.size.minSide := by
    rw [Size.minSide, Scalar.min_eq]
    exact lt_min wide high
  have moves {a b c d : Point ℝ} (le : v.pixelDistance a b ≤ v.pixelDistance c d) :
      t.moveDuration a b v ≤ t.moveDuration c d v ↔
        ¬t.Overtakes v.pixels.size.minSide (v.pixelDistance c d) (v.pixelDistance a b) :=
    lengthDuration_le_iff usable extent le
  refine ⟨moves, ⟨fun ordered => ?_, fun h a b c d le => ?_⟩, turnDuration_mono usable,
    zoomDuration_mono usable⟩
  · by_contra! h
    rcases (exists_overtakes_iff usable extent).mpr h with ⟨length, longer, le, overtakes⟩
    have nonneg : 0 ≤ length := le_trans (by norm_num [negligible]) overtakes.2.1.1
    have near := Viewport.pixelDistance_step positive nonneg
    have far := Viewport.pixelDistance_step positive (nonneg.trans le)
    rw [← near, ← far] at le overtakes
    exact (moves le).mp (ordered le) overtakes
  · refine (moves le).mpr fun overtakes => ?_
    rcases (exists_overtakes_iff usable extent).mp ⟨_, _, le, overtakes⟩ with ⟨room, early⟩
    exact h.elim room.not_ge early.not_ge

end Timing

/-! ### Moves on an oblong viewport -/

namespace Viewport

/-- A viewport of 800 by 600 pixels, each of which shows one global unit. -/
noncomputable def oblong : Viewport ℝ :=
  .ofPixelSize 800 600

/-- The oblong viewport shows something. -/
theorem oblong_extends :
    0 < oblong.scale ∧ 0 < oblong.pixels.size.width ∧ 0 < oblong.pixels.size.height := by
  norm_num [oblong, ofPixelSize]

/-- The oblong viewport is six hundred pixels high. -/
theorem minSide_oblong : oblong.pixels.size.minSide = 600 := by
  norm_num [oblong, ofPixelSize, Size.minSide]

/-- On the oblong viewport one pixel is one unit of the plane. -/
theorem pixelDistance_oblong {length : ℝ} (nonneg : 0 ≤ length) :
    oblong.pixelDistance 0 ⟨length, 0⟩ = length := by
  have step : oblong.pixelDistance 0 ⟨length * 1, 0⟩ = length :=
    pixelDistance_step one_pos nonneg
  rwa [mul_one] at step

end Viewport

namespace Timing

/-- On the oblong viewport, with the standard timing, a move over 1000 pixels takes at least as
long as one over 100, although not every longer move does.  A turn and a zoom in one direction
take at least as long as smaller ones in the other. -/
theorem bigger_takes_longer_oblong :
    standard.moveDuration 0 ⟨100, 0⟩ .oblong ≤ standard.moveDuration 0 ⟨1000, 0⟩ .oblong ∧
      (¬∀ {a b c d : Point ℝ},
        Viewport.oblong.pixelDistance a b ≤ Viewport.oblong.pixelDistance c d →
          standard.moveDuration a b .oblong ≤ standard.moveDuration c d .oblong) ∧
      (standard : Timing ℝ).turnDuration 0 1 ≤ standard.turnDuration 3 1 ∧
      (standard : Timing ℝ).zoomDuration 1 2 ≤ standard.zoomDuration 6 2 := by
  rcases Viewport.oblong_extends with ⟨positive, wide, high⟩
  rcases bigger_takes_longer Follow.usable_standard positive wide high with
    ⟨moves, everywhere, turns, zooms⟩
  have near : Viewport.oblong.pixelDistance 0 ⟨100, 0⟩ = 100 :=
    Viewport.pixelDistance_oblong (by norm_num)
  have far : Viewport.oblong.pixelDistance 0 ⟨1000, 0⟩ = 1000 :=
    Viewport.pixelDistance_oblong (by norm_num)
  refine ⟨?_, fun ordered => ?_, turns (by norm_num), ?_⟩
  · refine (moves (by norm_num [near, far])).mpr fun overtakes => ?_
    have early := overtakes.2.2
    norm_num [far, Viewport.minSide_oblong, standard] at early
  · have h := everywhere.mp ordered
    norm_num [Viewport.minSide_oblong, standard, negligible] at h
  · exact zooms (by norm_num) (by norm_num) (by norm_num) (by norm_num) (by norm_num)

/-- On the oblong viewport, with the standard timing, a move over 210 pixels takes less time
than one over 100: it goes at the speed, and the other takes the fixed time. -/
theorem not_longer_oblong :
    (standard : Timing ℝ).invalidField? = none ∧
      (0 < Viewport.oblong.scale ∧ 0 < Viewport.oblong.pixels.size.width ∧
        0 < Viewport.oblong.pixels.size.height) ∧
      Viewport.oblong.pixelDistance 0 ⟨100, 0⟩ ≤ Viewport.oblong.pixelDistance 0 ⟨210, 0⟩ ∧
      ¬standard.moveDuration 0 ⟨100, 0⟩ .oblong ≤ standard.moveDuration 0 ⟨210, 0⟩ .oblong := by
  have near : Viewport.oblong.pixelDistance 0 ⟨100, 0⟩ = 100 :=
    Viewport.pixelDistance_oblong (by norm_num)
  have far : Viewport.oblong.pixelDistance 0 ⟨210, 0⟩ = 210 :=
    Viewport.pixelDistance_oblong (by norm_num)
  have extent : 0 < Viewport.oblong.pixels.size.minSide := by
    norm_num [Viewport.minSide_oblong]
  have longer :
      Viewport.oblong.pixelDistance 0 ⟨100, 0⟩ ≤ Viewport.oblong.pixelDistance 0 ⟨210, 0⟩ := by
    norm_num [near, far]
  refine ⟨Follow.usable_standard, Viewport.oblong_extends, longer, fun le => ?_⟩
  refine (lengthDuration_le_iff Follow.usable_standard extent longer).mp le ?_
  rw [near, far, Viewport.minSide_oblong]
  refine ⟨⟨?_, ?_⟩, ⟨?_, ?_⟩, ?_⟩ <;> norm_num [standard, negligible]

end Timing

end CameraMotion
