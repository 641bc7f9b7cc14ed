import CameraMotion.Declarations
import CameraMotion.PropertyValue
import CameraMotion.Scalar

/-!
# Motions

What the scheduler asks of an animation that is not made of others.  Any type
that answers these questions can be scheduled, queued and composed.

A motion is also told of its start, of its finish and of its interruption.  It is taken
for granted that being told changes none of its answers: what it does then reaches its
listener and nobody else, and so it is logged and there is no function for it here.  With
such motions nobody can observe whether a member that leaves is told so before or after
its values are kept.
-/

namespace CameraMotion

/-- A type of animations timed in `α`. -/
class Motion (α : outParam Type) (μ : Type) where
  /-- The objects that it touches and the properties that it drives on them. -/
  declarations : μ → Declarations
  /-- Whether it may share its objects with other animations. -/
  mixable : μ → Bool
  /-- Whether a forced insertion may remove it. -/
  interruptible : μ → Bool
  /-- Let time pass. -/
  advance : μ → α → μ
  /-- Whether it has run to its end. -/
  finished : μ → Bool
  /-- Seconds that it takes. -/
  duration : μ → α
  /-- Bring the end forward to at most this many seconds. -/
  cap : μ → α → μ
  /-- The value of a channel. -/
  reading : μ → Channel → PropertyValue α

end CameraMotion
