import CameraMotion.Clock
import CameraMotion.Timing
import CameraMotion.Viewport

/-!
# Natural durations

How long a move, a turn and a zoom take by themselves.  A move is measured in
pixels of the viewport, a turn in radians, a zoom by the ratio of the two scale
factors.
-/

namespace CameraMotion.Timing

variable {α : Type} [Scalar α]

/-- Differences below this are not worth any time. -/
def negligible : α :=
  1e-5

/-- Seconds needed to cover a difference at a speed. -/
def speedDuration (difference speed : α) : α :=
  if Scalar.abs difference < negligible then 0 else Scalar.abs difference / speed

/-- The natural duration of a move over a length in pixels, on a viewport with
the given shorter side.  A short move takes a fixed time, a long one goes at a
speed relative to the viewport. -/
def lengthDuration (t : Timing α) (length minSide : α) : α :=
  if length < negligible then 0
  else if length < t.minSpeedScalar * minSide then t.minMoveDuration
  else speedDuration length (t.maxSpeedScalar * minSide)

/-- The natural duration of a move between two global points. -/
def moveDuration {α : Type} [PlaneScalar α] (t : Timing α) (start stop : Point α)
    (v : Viewport α) : α :=
  t.lengthDuration ((v.toPixels stop).distance (v.toPixels start)) v.pixels.size.minSide

/-- The natural duration of a turn between two angles. -/
def turnDuration {α : Type} [PlaneScalar α] (t : Timing α) (start stop : α) : α :=
  t.quarterTurnDuration * Scalar.abs (stop - start) / PlaneScalar.eighthTurn

/-- The ratio of the larger scale factor to the smaller one. -/
def zoomRatio (start stop : α) : α :=
  if stop < start then start / stop else stop / start

/-- The natural duration of a zoom between two scale factors. -/
def zoomDuration (t : Timing α) (start stop : α) : α :=
  let ratio := zoomRatio start stop
  if Scalar.abs (ratio - 1) < negligible then 0 else speedDuration ratio t.zoomSpeed

/-- What the duration of a zoom asks of its caller. -/
def zoomBreaches (start stop : α) : List Violation :=
  Violation.unless (0 < start && 0 < stop) .scaleFactors

end CameraMotion.Timing
