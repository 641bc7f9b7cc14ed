import CameraMotion.Plane.Point

/-!
# Property values

The current value of a channel: a scalar for an angle or a scale factor, a point
for a position.
-/

namespace CameraMotion

/-- The value of a property. -/
inductive PropertyValue (α : Type) where
  /-- An angle in radians or a scale factor. -/
  | scalar (x : α)
  /-- A position in global coordinates. -/
  | point (p : Point α)
deriving DecidableEq, Repr

namespace PropertyValue

variable {α : Type}

/-- The scalar, unless the value is a point. -/
def scalar? : PropertyValue α → Option α
  | .scalar x => some x
  | .point _ => none

/-- The point, unless the value is a scalar. -/
def point? : PropertyValue α → Option (Point α)
  | .scalar _ => none
  | .point p => some p

/-- The value that stands in where none can be read: the scalar zero. -/
def fallback [Scalar α] : PropertyValue α :=
  .scalar 0

end PropertyValue

end CameraMotion
