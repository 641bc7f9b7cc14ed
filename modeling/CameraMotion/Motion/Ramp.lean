import CameraMotion.Motion

/-!
# Ramps

The plainest motion: a value that grows by one in every second, on whatever
channels it declares, until its duration is over.
-/

namespace CameraMotion

/-- A value that grows with time. -/
structure Ramp (α : Type) where
  /-- What it touches and drives. -/
  declarations : Declarations
  /-- Whether it may share its objects. -/
  mixable : Bool
  /-- Whether it may be removed before its end. -/
  interruptible : Bool
  /-- Seconds that it takes. -/
  duration : α
  /-- Seconds since the start. -/
  elapsed : α
  /-- The value on every channel. -/
  value : PropertyValue α
deriving DecidableEq, Repr

namespace Ramp

variable {α : Type} [Scalar α]

/-- Add to a scalar, or to the horizontal coordinate of a point. -/
def raise (amount : α) : PropertyValue α → PropertyValue α
  | .scalar x => .scalar (x + amount)
  | .point p => .point ⟨p.x + amount, p.y⟩

/-- Let time pass; the value grows with it. -/
def advance (r : Ramp α) (seconds : α) : Ramp α :=
  { r with elapsed := r.elapsed + seconds, value := raise seconds r.value }

/-- Whether the duration has passed. -/
def finished (r : Ramp α) : Bool :=
  r.duration ≤ r.elapsed

/-- Shorten the duration to at most `limit`. -/
def cap (r : Ramp α) (limit : α) : Ramp α :=
  if limit < r.duration then { r with duration := limit } else r

instance : Motion α (Ramp α) where
  declarations := Ramp.declarations
  mixable := Ramp.mixable
  interruptible := Ramp.interruptible
  advance := advance
  finished := finished
  duration := Ramp.duration
  cap := cap
  reading r _ := r.value

end Ramp

end CameraMotion
