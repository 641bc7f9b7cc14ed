import CameraMotion.Proofs.SlowestPart

/-!
# Natural durations without division by zero

A timing with usable constants measures turns, zooms and moves.  A turn is divided by an
eighth of the full circle, a zoom by a scale factor and by a speed, and a move by a speed
and the shorter side of the viewport.  That side is the only divisor that may be zero:
nothing asks for an extent of the viewport, and a move that is too short to count is all
that is looked for before the division.  So a move on a viewport without extent has no
duration, and every other part of a follow has one that is not negative, and ends.

Main results:

- Theorems `Timing.turnDuration_map` and `Timing.zoomDuration_map`: turns and zooms are
  measured without dividing by zero.
- Theorem `Timing.moveDuration_map`: so are moves, but for those on a viewport without
  extent.
- Theorem `Follow.natural_durations`: which parts have a duration, and that the follows made
  of them end.
- Theorem `Follow.undefined_duration_strip`: a move along a viewport that is a line has none.
-/

namespace CameraMotion

open Checked (number undefined)

/-! ## The same data in other numbers -/

section

variable {α β : Type} (f : α → β)

def Point.map (p : Point α) : Point β :=
  ⟨f p.x, f p.y⟩

def Affine.map (m : Affine α) : Affine β :=
  ⟨f m.a, f m.b, f m.c, f m.d, f m.tx, f m.ty⟩

def Viewport.map (v : Viewport α) : Viewport β :=
  { pixels := ⟨v.pixels.origin.map f, ⟨f v.pixels.size.width, f v.pixels.size.height⟩⟩
    focus := v.focus.map f
    angle := f v.angle
    scale := f v.scale }

def Timing.map (t : Timing α) : Timing β :=
  { minMoveDuration := f t.minMoveDuration
    minSpeedScalar := f t.minSpeedScalar
    maxSpeedScalar := f t.maxSpeedScalar
    quarterTurnDuration := f t.quarterTurnDuration
    zoomSpeed := f t.zoomSpeed }

def Tween.map {γ δ : Type} (g : γ → δ) (t : Tween α γ) : Tween β δ :=
  ⟨t.clock.map f, g t.start, g t.stop, g t.current⟩

namespace Follow

def map (m : Follow α) : Follow β :=
  { timing := m.timing.map f
    position := m.position.map (.map f (.map f))
    angle := m.angle.map (.map f f)
    scale := m.scale.map (.map f f)
    driven := m.driven
    inStep := m.inStep.map _ _ _ }

def Part.map : Part α → Part β
  | move start stop view => move (start.map f) (stop.map f) (view.map f)
  | turn start stop => turn (f start) (f stop)
  | zoom start stop => zoom (f start) (f stop)

def Call.map : Call α → Call β
  | set part => set (part.map f)
  | cap limit => cap (f limit)

end Follow

end

variable {guess : Bool}

/-! ## Lengths on the viewport -/

namespace Affine

variable (m n : Affine ℝ)

/-- Maps are composed without dividing. -/
theorem after_map :
    (m.map number : Affine (Checked guess)).after (n.map number) = (m.after n).map number := by
  simp [map, after]

/-- Maps are applied without dividing. -/
theorem apply_map (p : Point ℝ) :
    (m.map number : Affine (Checked guess)).apply (p.map number) = (m.apply p).map number := by
  simp [map, apply, Point.map]

end Affine

namespace Viewport

/-- How many pixels two global points are apart. -/
def pixelDistance {α : Type} [PlaneScalar α] (v : Viewport α) (start stop : Point α) : α :=
  (v.toPixels stop).distance (v.toPixels start)

variable {v : Viewport ℝ}

/-- Pixels are worked out without dividing by zero, if the scale is not. -/
theorem pixelMap_map (scale : v.scale ≠ 0) :
    (v.map number : Viewport (Checked guess)).pixelMap = v.pixelMap.map number := by
  have half : (2.0 : ℝ) ≠ 0 := by norm_num
  have center : (v.map number : Viewport (Checked guess)).pixels.center =
      v.pixels.center.map number := by
    simp [map, Point.map, Rect.center, half]
  have inverse (x : ℝ) : number x / (v.map number : Viewport (Checked guess)).scale =
      number (x / v.scale) := Checked.number_div_of_ne_zero scale
  simp only [pixelMap, center, Checked.one_eq, Checked.number_neg, inverse, ← Affine.after_map]
  rfl

/-- A viewport with a scale maps points to its pixels without dividing by zero. -/
theorem toPixels_map (scale : v.scale ≠ 0) (p : Point ℝ) :
    (v.map number : Viewport (Checked guess)).toPixels (p.map number) =
      (v.toPixels p).map number := by
  rw [toPixels, pixelMap_map scale, Affine.apply_map, toPixels]

/-- On a viewport with a scale the distance in pixels is worked out without dividing by
zero. -/
theorem pixelDistance_map (scale : v.scale ≠ 0) (start stop : Point ℝ) :
    (v.map number : Viewport (Checked guess)).pixelDistance (start.map number) (stop.map number) =
      number (v.pixelDistance start stop) := by
  rw [pixelDistance, toPixels_map scale, toPixels_map scale]
  simp [pixelDistance, Point.distance, Point.map]

/-- The shorter side of a viewport is worked out without dividing. -/
theorem minSide_map :
    (v.map number : Viewport (Checked guess)).pixels.size.minSide =
      number v.pixels.size.minSide := by
  simp [map, Size.minSide]

end Viewport

/-! ## Durations -/

namespace Timing

variable {t : Timing ℝ}

/-- Constants that can be used are above zero. -/
theorem pos_of_usable (usable : t.invalidField? = none) (field : Field) : 0 < t.get field := by
  have ok := invalidField?_eq_none_iff.mp usable field
  simp only [Timing.usable, Bool.and_eq_true, decide_eq_true_iff] at ok
  exact ok.2

/-- Nothing takes a negative time at a speed that is not negative. -/
theorem speedDuration_nonneg (difference : ℝ) {speed : ℝ} (forward : 0 ≤ speed) :
    0 ≤ speedDuration difference speed := by
  rw [speedDuration, Scalar.abs_eq]
  split_ifs
  · exact le_rfl
  · exact div_nonneg (abs_nonneg _) forward

/-- With usable constants no turn takes a negative time. -/
theorem turnDuration_nonneg (usable : t.invalidField? = none) (start stop : ℝ) :
    0 ≤ t.turnDuration start stop := by
  have turn : 0 < t.quarterTurnDuration := pos_of_usable usable .quarterTurnDuration
  have eighth : (0 : ℝ) ≤ PlaneScalar.eighthTurn := by
    show 0 ≤ Real.pi / 4
    positivity
  rw [turnDuration, Scalar.abs_eq]
  exact div_nonneg (mul_nonneg turn.le (abs_nonneg _)) eighth

/-- With usable constants no zoom takes a negative time. -/
theorem zoomDuration_nonneg (usable : t.invalidField? = none) (start stop : ℝ) :
    0 ≤ t.zoomDuration start stop := by
  have speed : 0 < t.zoomSpeed := pos_of_usable usable .zoomSpeed
  rw [zoomDuration]
  split_ifs
  · exact le_rfl
  · exact speedDuration_nonneg _ speed.le

/-- With usable constants no length takes a negative time. -/
theorem lengthDuration_nonneg (usable : t.invalidField? = none) (length : ℝ) {minSide : ℝ}
    (extent : 0 ≤ minSide) : 0 ≤ t.lengthDuration length minSide := by
  have short : 0 < t.minMoveDuration := pos_of_usable usable .minMoveDuration
  have speed : 0 < t.maxSpeedScalar := pos_of_usable usable .maxSpeedScalar
  rw [lengthDuration]
  split_ifs
  · exact le_rfl
  · exact short.le
  · exact speedDuration_nonneg _ (mul_nonneg speed.le extent)

/-! ### Without division by zero -/

/-- The length that is negligible is the same in both kinds of numbers. -/
theorem negligible_eq : (negligible : Checked guess) = number negligible :=
  rfl

/-- A speed other than zero divides nothing by zero. -/
theorem speedDuration_map (difference : ℝ) {speed : ℝ} (moves : speed ≠ 0) :
    speedDuration (number difference : Checked guess) (number speed) =
      number (speedDuration difference speed) := by
  rw [speedDuration, speedDuration, Checked.number_abs, Scalar.abs_eq, negligible_eq,
    Checked.number_div_of_ne_zero moves]
  simp only [Checked.number_lt]
  split_ifs <;> rfl

/-- Turns are measured without dividing by zero. -/
theorem turnDuration_map (t : Timing ℝ) (start stop : ℝ) :
    (t.map number : Timing (Checked guess)).turnDuration (number start) (number stop) =
      number (t.turnDuration start stop) := by
  have eighth : Real.pi / 4 ≠ 0 := by positivity
  rw [turnDuration, turnDuration, Checked.number_sub, Checked.number_abs, Scalar.abs_eq]
  exact Checked.number_div_of_ne_zero eighth

/-- The ratio of two scales other than zero divides nothing by zero. -/
theorem zoomRatio_map {start stop : ℝ} (far : start ≠ 0) (near : stop ≠ 0) :
    zoomRatio (number start : Checked guess) (number stop) = number (zoomRatio start stop) := by
  rw [zoomRatio, zoomRatio, Checked.number_div_of_ne_zero far, Checked.number_div_of_ne_zero near]
  simp only [Checked.number_lt]
  split_ifs <;> rfl

/-- Zooms between scale factors above zero are measured without dividing by zero. -/
theorem zoomDuration_map (usable : t.invalidField? = none) {start stop : ℝ} (far : 0 < start)
    (near : 0 < stop) :
    (t.map number : Timing (Checked guess)).zoomDuration (number start) (number stop) =
      number (t.zoomDuration start stop) := by
  have speed : t.zoomSpeed ≠ 0 := (pos_of_usable usable .zoomSpeed).ne'
  have zoomed : speedDuration (number (zoomRatio start stop) : Checked guess)
      (number t.zoomSpeed) = _ := speedDuration_map _ speed
  simp only [zoomDuration, zoomRatio_map far.ne' near.ne', negligible_eq, Checked.one_eq,
    Checked.number_sub, Checked.number_abs, Checked.number_lt, Scalar.abs_eq]
  split_ifs
  · rfl
  · exact zoomed

/-- Lengths are measured without dividing by zero if the viewport has an extent, or there is
nothing to measure. -/
theorem lengthDuration_map (usable : t.invalidField? = none) {length minSide : ℝ}
    (h : 0 < minSide ∨ length < negligible) :
    (t.map number : Timing (Checked guess)).lengthDuration (number length) (number minSide) =
      number (t.lengthDuration length minSide) := by
  simp only [lengthDuration, map, negligible_eq, Checked.number_lt, Checked.number_mul]
  split_ifs with tiny short
  · rfl
  · rfl
  · have speed : 0 < t.maxSpeedScalar := pos_of_usable usable .maxSpeedScalar
    have extent : 0 < minSide := h.resolve_right tiny
    exact speedDuration_map length (mul_pos speed extent).ne'

/-- On a viewport without extent a length is divided by zero. -/
theorem lengthDuration_map_zero (t : Timing ℝ) {length : ℝ} (long : negligible ≤ length) :
    (t.map number).lengthDuration (number length) (number 0) = (undefined : Checked guess) := by
  have positive : 0 < length := lt_of_lt_of_le (by norm_num [negligible]) long
  simp only [lengthDuration, speedDuration, map, negligible_eq, Checked.number_lt,
    Checked.number_mul, Checked.number_abs, mul_zero, Checked.number_div, abs_of_pos positive]
  rw [if_neg long.not_gt, if_neg positive.not_gt, if_neg long.not_gt, if_pos trivial]

/-- Moves are measured without dividing by zero, but for those on a viewport without extent. -/
theorem moveDuration_map (usable : t.invalidField? = none) {v : Viewport ℝ} (scale : 0 < v.scale)
    {start stop : Point ℝ}
    (h : 0 < v.pixels.size.minSide ∨ v.pixelDistance start stop < negligible) :
    (t.map number : Timing (Checked guess)).moveDuration (start.map number) (stop.map number)
      (v.map number) = number (t.moveDuration start stop v) := by
  rw [moveDuration, Viewport.minSide_map]
  have pixels : (v.map number : Viewport (Checked guess)).pixelDistance (start.map number)
      (stop.map number) = _ := Viewport.pixelDistance_map scale.ne' start stop
  exact (congrArg (fun l => lengthDuration _ l _) pixels).trans (lengthDuration_map usable h)

/-- A move on a viewport without extent has no duration, unless it is too short to count. -/
theorem moveDuration_map_zero (t : Timing ℝ) {v : Viewport ℝ} (scale : 0 < v.scale)
    {start stop : Point ℝ} (flat : v.pixels.size.minSide = 0)
    (long : negligible ≤ v.pixelDistance start stop) :
    (t.map number).moveDuration (start.map number) (stop.map number) (v.map number) =
      (undefined : Checked guess) := by
  rw [moveDuration, Viewport.minSide_map, flat]
  have pixels : (v.map number : Viewport (Checked guess)).pixelDistance (start.map number)
      (stop.map number) = _ := Viewport.pixelDistance_map scale.ne' start stop
  exact (congrArg (fun l => lengthDuration _ l _) pixels).trans (lengthDuration_map_zero t long)

end Timing

/-! ## Parts -/

namespace Follow.Part

/-- The natural duration of a part. -/
def duration {α : Type} [PlaneScalar α] (t : Timing α) : Part α → α
  | move start stop view => t.moveDuration start stop view
  | turn start stop => t.turnDuration start stop
  | zoom start stop => t.zoomDuration start stop

/-- What a part is asked for with: a viewport whose scale is above zero and whose sides are
not negative, or scale factors above zero. -/
def Proper : Part ℝ → Prop
  | move _ _ view => 0 < view.scale ∧ 0 ≤ view.pixels.size.width ∧ 0 ≤ view.pixels.size.height
  | turn _ _ => True
  | zoom start stop => 0 < start ∧ 0 < stop

/-- A move that counts, on a viewport one side of which is zero. -/
def Flat : Part ℝ → Prop
  | move start stop view =>
      view.pixels.size.minSide = 0 ∧ Timing.negligible ≤ view.pixelDistance start stop
  | turn _ _ => False
  | zoom _ _ => False

variable {t : Timing ℝ} {part : Part ℝ}

/-- A viewport with an extent has a shorter side with one. -/
theorem Proper.minSide_nonneg {start stop : Point ℝ} {view : Viewport ℝ}
    (h : (move start stop view).Proper) : 0 ≤ view.pixels.size.minSide := by
  rw [Size.minSide, Scalar.min_eq]
  exact le_min h.2.1 h.2.2

/-- With usable constants a proper part takes no negative time. -/
theorem duration_nonneg (usable : t.invalidField? = none) (h : part.Proper) :
    0 ≤ part.duration t := by
  cases part with
  | move start stop view => exact Timing.lengthDuration_nonneg usable _ h.minSide_nonneg
  | turn start stop => exact Timing.turnDuration_nonneg usable start stop
  | zoom start stop => exact Timing.zoomDuration_nonneg usable start stop

/-- The duration of a proper part that is not flat is worked out without dividing by zero.
-/
theorem duration_map (usable : t.invalidField? = none) (h : part.Proper) (long : ¬part.Flat) :
    (part.map number : Part (Checked guess)).duration (t.map number) =
      number (part.duration t) := by
  cases part with
  | move start stop view =>
      refine Timing.moveDuration_map usable h.1 ?_
      rcases h.minSide_nonneg.eq_or_lt with none | extent
      · exact .inr (not_le.mp fun counts => long ⟨none.symm, counts⟩)
      · exact .inl extent
  | turn start stop => exact Timing.turnDuration_map t start stop
  | zoom start stop => exact Timing.zoomDuration_map usable h.1 h.2

/-- The duration of a flat part is not defined. -/
theorem duration_map_of_flat (t : Timing ℝ) (h : part.Proper) (flat : part.Flat) :
    (part.map number).duration (t.map number) = (undefined : Checked guess) := by
  cases part with
  | move start stop view => exact Timing.moveDuration_map_zero t h.1 flat.1 flat.2
  | turn start stop => exact flat.elim
  | zoom start stop => exact flat.elim

end Follow.Part

/-! ## Follows -/

/-- A tween with a given duration is made without dividing. -/
theorem Tween.ofDuration_map {γ δ : Type} (g : γ → δ) (duration delay : ℝ) (start stop : γ) :
    ((ofDuration duration delay start stop).map number g : Tween (Checked guess) δ) =
      ofDuration (number duration) (number delay) (g start) (g stop) := by
  simp [ofDuration, map, ← Clock.map_start]

namespace Follow

variable {t : Timing ℝ} {f : Follow ℝ} {part : Part ℝ}

/-- Whether a part leads nowhere is found out without dividing. -/
theorem Part.idle_map : (part.map number : Part (Checked guess)).idle = part.idle := by
  cases part with
  | move a b _ =>
      show (number a.x == number b.x && number a.y == number b.y) = (a.x == b.x && a.y == b.y)
      rw [Checked.number_beq, Checked.number_beq]
  | turn a b | zoom a b => exact Checked.number_beq a b

/-- A proper part that is not flat is put into a follow without dividing by zero. -/
theorem put_map (usable : f.timing.invalidField? = none) (proper : part.Proper)
    (long : ¬part.Flat) :
    ((f.put part).map number : Follow (Checked guess)) = (f.map number).put (part.map number) := by
  have measured : (part.map number : Part (Checked guess)).duration (f.timing.map number) = _ :=
    Part.duration_map usable proper long
  have tween {γ δ : Type} (g : γ → δ) (start stop : γ) :
      (Tween.ofDuration (part.duration f.timing) 0 start stop).map number g =
        Tween.ofDuration ((part.map number : Part (Checked guess)).duration (f.timing.map number))
          0 (g start) (g stop) := by
    rw [measured, Tween.ofDuration_map]
    rfl
  cases part with
  | move a b v => exact Follow.ext rfl (congrArg some (tween (Point.map number) a b)) rfl rfl
  | turn a b => exact Follow.ext rfl rfl (congrArg some (tween number a b)) rfl
  | zoom a b => exact Follow.ext rfl rfl rfl (congrArg some (tween number a b))

/-- Asking for a part divides nothing by zero. -/
theorem withPart_map (usable : f.timing.invalidField? = none) (proper : part.Proper)
    (long : ¬part.Flat) :
    ((f.withPart part).map number : Follow (Checked guess)) =
      (f.map number).withPart (part.map number) := by
  have idle : (part.map number : Part (Checked guess)).idle = part.idle := Part.idle_map
  by_cases still : part.idle = true
  · rw [withPart_of_idle f still, withPart_of_idle _ (idle.trans still)]
  · rw [withPart_of_moves f still, withPart_of_moves _ (by rwa [idle]),
      put_map usable proper long]

/-- A follow is capped without dividing. -/
theorem cap_map (f : Follow ℝ) (limit : ℝ) :
    ((f.cap limit).map number : Follow (Checked guess)) = (f.map number).cap (number limit) := by
  ext1 <;> simp [map, cap, Tween.map, Tween.cap, Clock.map, Clock.cap, Function.comp_def]

/-- The constants of a follow are those that it was made with. -/
theorem timing_fill {α : Type} [PlaneScalar α] (timing : Timing α) (calls : List (Call α)) :
    (fill timing calls).timing = timing := by
  have kept (f : Follow α) (c : Call α) : (f.call c).timing = f.timing := by
    cases c with
    | cap limit => rfl
    | set part =>
        by_cases idle : part.idle = true
        · rw [call, withPart_of_idle f idle]
        · rw [call, withPart_of_moves f idle]
          cases part <;> rfl
  induction calls using List.reverseRecOn with
  | nil => rfl
  | append_singleton calls c ih => rw [fill_concat, kept, ih]

/-- Filling a follow divides nothing by zero. -/
theorem fill_map (usable : t.invalidField? = none) {calls : List (Call ℝ)}
    (ok : ∀ part, .set part ∈ calls → part.Proper ∧ ¬part.Flat) :
    ((fill t calls).map number : Follow (Checked guess)) =
      fill (t.map number) (calls.map (.map number)) := by
  induction calls using List.reverseRecOn with
  | nil => rfl
  | append_singleton calls c ih =>
      have before := ih fun part there => ok part (List.mem_append_left _ there)
      have timed : (fill t calls).timing.invalidField? = none := by rwa [timing_fill]
      rw [List.map_append, List.map_singleton, fill_concat, fill_concat, ← before]
      cases c with
      | cap limit => exact cap_map _ limit
      | set part =>
          rcases ok part (List.mem_append_right _ (List.mem_singleton_self _)) with ⟨proper, long⟩
          exact withPart_map timed proper long

/-- The clocks of a follow are mapped one by one. -/
theorem clocks_map {α β : Type} (g : α → β) (f : Follow α) :
    (f.map g).clocks = f.clocks.map (.map g) := by
  rcases f with ⟨timing, _ | _, _ | _, _ | _⟩ <;> rfl

/-- The duration of a follow is worked out without dividing. -/
theorem duration_map (f : Follow ℝ) :
    (f.map number : Follow (Checked guess)).duration = number f.duration := by
  rcases f with ⟨timing, _ | _, _ | _, _ | _⟩ <;>
    simp [map, duration, Tween.duration, Tween.map, Clock.map]

/-- Whether a follow is over after some steps is found out without dividing by zero. -/
theorem finished_run_map (f : Follow ℝ) (steps : List (Clock.Step ℝ)) :
    ((f.map number : Follow (Checked guess)).run (steps.map (.map number))).finished =
      (f.run steps).finished := by
  have clock (c : Clock ℝ) : ((c.map number : Clock (Checked guess)).run
      (steps.map (.map number))).finished = (c.run steps).finished := by
    rw [← Clock.map_run, Clock.finished_map]
  simp only [finished_eq, clocks_run, clocks_map, List.map_map, List.all_map, Function.comp_def,
    clock]

/-- A follow is over once more than its duration has passed, also if its end is brought
forward. -/
theorem Fresh.finished_run {f : Follow ℝ} (h : f.Fresh) {steps : List (Clock.Step ℝ)}
    (forward : ∀ s ∈ steps, 0 ≤ s.seconds)
    (enough : f.duration < (steps.map Clock.Step.seconds).sum) :
    (f.run steps).finished = true := by
  rw [finished_eq, clocks_run, List.all_map, List.all_eq_true]
  intro c hc
  have fresh := h.clocks c hc
  have shrinks := (Clock.later_run fresh.duration forward).shrinks
  exact (fresh.finished_run_iff forward).mpr
    (.inr ((shrinks.trans (duration_le hc)).trans_lt enough))

/-- With usable constants every part has a natural duration that is worked out without
dividing by zero, is not negative and can be given to a clock, but for a move that counts
on a viewport one side of which is zero: that move is divided by zero.  A follow that is
filled without such a move has a duration too, and is over once more time has passed. -/
theorem natural_durations (usable : t.invalidField? = none) (guess : Bool) :
    (∀ part : Part ℝ, part.Proper →
      let natural : Checked guess := (part.map number).duration (t.map number)
      (part.Flat → natural = undefined) ∧
      (¬part.Flat → ∃ x, 0 ≤ x ∧ natural = number x ∧ Clock.startBreaches natural 0 = [])) ∧
    ∀ calls : List (Call ℝ), (∀ part, .set part ∈ calls → part.Proper ∧ ¬part.Flat) →
      let f : Follow (Checked guess) := fill (t.map number) (calls.map (.map number))
      ∃ x, 0 ≤ x ∧ f.duration = number x ∧
        ∀ steps : List (Clock.Step ℝ), (∀ s ∈ steps, 0 ≤ s.seconds) →
          x < (steps.map Clock.Step.seconds).sum →
            (f.run (steps.map (.map number))).finished = true := by
  refine ⟨fun part proper => ⟨Part.duration_map_of_flat t proper, fun long => ?_⟩,
    fun calls ok => ?_⟩
  · have nonneg := Part.duration_nonneg usable proper
    refine ⟨_, nonneg, Part.duration_map usable proper long, ?_⟩
    rw [Part.duration_map usable proper long]
    simp [Clock.startBreaches, Violation.unless, nonneg]
  · have fresh := fresh_fill t calls
    refine ⟨(fill t calls).duration, fresh.duration_nonneg, ?_, fun steps forward enough => ?_⟩
    · rw [← fill_map usable ok, duration_map]
    · rw [← fill_map usable ok, finished_run_map]
      exact fresh.finished_run forward enough

/-- The standard constants are usable. -/
theorem usable_standard : (Timing.standard : Timing ℝ).invalidField? = none := by
  rw [Timing.invalidField?_eq_none_iff]
  intro field
  cases field <;>
    norm_num [Timing.usable, Timing.get, Timing.standard, Scalar.isFinite]

/-- A move by a pixel. -/
noncomputable def pixelStep (width height : ℝ) : Part ℝ :=
  .move 0 ⟨1, 0⟩ (.ofPixelSize width height)

/-- On a viewport at its start a step of one unit is a step of one pixel. -/
private theorem pixelDistance_ofPixelSize (width height : ℝ) :
    (Viewport.ofPixelSize width height).pixelDistance 0 ⟨1, 0⟩ = 1 := by
  have origin : (0 : Point ℝ) = ⟨0, 0⟩ := rfl
  simp [origin, Viewport.pixelDistance, Viewport.toPixels, Viewport.pixelMap, Viewport.ofPixelSize,
    Affine.translation, Affine.scaling, Affine.rotation, Affine.after, Affine.apply,
    Point.distance, PlaneScalar.hypot, PlaneScalar.cos, PlaneScalar.sin]

/-- A step on a viewport without negative sides is proper. -/
private theorem proper_pixelStep {width height : ℝ} (wide : 0 ≤ width) (high : 0 ≤ height) :
    (pixelStep width height).Proper :=
  ⟨one_pos, wide, high⟩

/-- On a viewport with an extent a move by a pixel has a duration, and the follow that makes
this move ends. -/
theorem natural_durations_pixelStep :
    (Timing.standard : Timing ℝ).invalidField? = none ∧ ∀ guess : Bool,
      let timing : Timing (Checked guess) := Timing.standard.map number
      (∃ x, 0 ≤ x ∧ ((pixelStep 200 100).map number).duration timing = number x) ∧
      ∃ x, ((fill timing [.set ((pixelStep 200 100).map number)]).run
        [.advance (number x)]).finished = true := by
  refine ⟨usable_standard, fun guess => ?_⟩
  have proper : (pixelStep 200 100).Proper := proper_pixelStep (by norm_num) (by norm_num)
  have long : ¬(pixelStep 200 100).Flat := by
    rintro ⟨flat, _⟩
    norm_num [Viewport.ofPixelSize, Size.minSide] at flat
  rcases natural_durations usable_standard guess with ⟨parts, follows⟩
  rcases (parts _ proper).2 long with ⟨x, nonneg, natural, _⟩
  rcases follows [.set (pixelStep 200 100)] (by simpa using ⟨proper, long⟩) with
    ⟨y, forward, _, ends⟩
  refine ⟨⟨x, nonneg, natural⟩, y + 1, ends [.advance (y + 1)] ?_ ?_⟩
  · simpa [Clock.Step.seconds] using by linarith
  · simp [Clock.Step.seconds]

/-- On a viewport that is a line a move by a pixel has no duration. -/
theorem undefined_duration_strip :
    (Timing.standard : Timing ℝ).invalidField? = none ∧ (pixelStep 0 100).Proper ∧
      ∀ guess, ((pixelStep 0 100).map number).duration
        (Timing.standard.map number : Timing (Checked guess)) = undefined := by
  have proper : (pixelStep 0 100).Proper := proper_pixelStep le_rfl (by norm_num)
  refine ⟨usable_standard, proper, fun guess => Part.duration_map_of_flat _ proper ⟨?_, ?_⟩⟩
  · norm_num [Viewport.ofPixelSize, Size.minSide]
  · rw [pixelDistance_ofPixelSize]
    norm_num [Timing.negligible]

end Follow

end CameraMotion
