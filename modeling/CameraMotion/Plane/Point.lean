import CameraMotion.Scalar

/-!
# Points of the plane

Points stand for global positions on the map and for pixels on the viewport
alike.  Interpolation between scalars and between points is the class `Lerp`.
-/

namespace CameraMotion

/-- A point of the plane. -/
@[ext]
structure Point (α : Type) where
  /-- The horizontal coordinate. -/
  x : α
  /-- The vertical coordinate. -/
  y : α
deriving DecidableEq, Repr

namespace Point

variable {α : Type} [Scalar α]

/-! ## Arithmetic, coordinate by coordinate -/

/-- The origin. -/
instance : Zero (Point α) where
  zero := ⟨0, 0⟩

instance : Add (Point α) where
  add a b := ⟨a.x + b.x, a.y + b.y⟩

instance : Sub (Point α) where
  sub a b := ⟨a.x - b.x, a.y - b.y⟩

instance : Neg (Point α) where
  neg a := ⟨-a.x, -a.y⟩

/-- Two points agree when both coordinates do. -/
instance : BEq (Point α) where
  beq a b := a.x == b.x && a.y == b.y

/-- Stretch a point away from the origin. -/
def stretch (a : Point α) (factor : α) : Point α :=
  ⟨a.x * factor, a.y * factor⟩

/-- Move a point. -/
def offset (a : Point α) (dx dy : α) : Point α :=
  ⟨a.x + dx, a.y + dy⟩

/-- Whether two points agree up to a tolerance on each axis. -/
def almostEq (a b : Point α) (tolerance : α) : Bool :=
  Scalar.abs (a.x - b.x) ≤ tolerance && Scalar.abs (a.y - b.y) ≤ tolerance

/-! ## Lengths -/

/-- Distance to another point. -/
def distance {α : Type} [PlaneScalar α] (a b : Point α) : α :=
  PlaneScalar.hypot (b.x - a.x) (b.y - a.y)

/-- Distance from the origin. -/
def norm {α : Type} [PlaneScalar α] (a : Point α) : α :=
  PlaneScalar.hypot a.x a.y

end Point

/-! ## Linear interpolation -/

/-- Values of type `β` with a straight way from one to the other. -/
class Lerp (α : outParam Type) (β : Type) where
  /-- The value a share `t` of the way from `start` to `stop`. -/
  lerp : (start stop : β) → (t : α) → β

export Lerp (lerp)

/-- The scalar a share `t` of the way from `start` to `stop`. -/
def Scalar.lerp {α : Type} [Scalar α] (start stop t : α) : α :=
  start + (stop - start) * t

instance {α : Type} [Scalar α] : Lerp α α where
  lerp := Scalar.lerp

/-- The point a share `t` of the way from `start` to `stop`. -/
def Point.lerp {α : Type} [Scalar α] (start stop : Point α) (t : α) : Point α :=
  ⟨Scalar.lerp start.x stop.x t, Scalar.lerp start.y stop.y t⟩

instance {α : Type} [Scalar α] : Lerp α (Point α) where
  lerp := Point.lerp

end CameraMotion
