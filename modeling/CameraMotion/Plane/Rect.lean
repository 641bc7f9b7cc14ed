import CameraMotion.Plane.Affine

/-!
# Rectangles

Sizes, rectangles along the axes, and rectangles turned around a point of the
plane.
-/

namespace CameraMotion

/-- A width and a height. -/
@[ext]
structure Size (α : Type) where
  /-- Horizontal extent. -/
  width : α
  /-- Vertical extent. -/
  height : α
deriving DecidableEq, Repr

/-- A rectangle along the axes. -/
@[ext]
structure Rect (α : Type) where
  /-- The corner with the least coordinates. -/
  origin : Point α
  /-- The two extents. -/
  size : Size α
deriving DecidableEq, Repr

/-- A rectangle along local axes, whose origin lies at `anchor` and which are
turned by `angle` radians. -/
@[ext]
structure OrientedRect (α : Type) where
  /-- The local origin in global coordinates. -/
  anchor : Point α
  /-- The angle of the local axes. -/
  angle : α
  /-- The rectangle in local coordinates. -/
  rect : Rect α
deriving DecidableEq, Repr

/-! ## Sizes -/

namespace Size

variable {α : Type} [Scalar α]

instance : Zero (Size α) where
  zero := ⟨0, 0⟩

/-- The rectangle of this size at the origin. -/
def toRect (s : Size α) : Rect α :=
  ⟨0, s⟩

/-- The shorter side. -/
def minSide (s : Size α) : α :=
  Scalar.min s.width s.height

end Size

/-! ## Rectangles along the axes -/

namespace Rect

variable {α : Type} [Scalar α]

instance : Zero (Rect α) where
  zero := ⟨0, 0⟩

/-- The point in the middle. -/
def center (r : Rect α) : Point α :=
  ⟨r.origin.x + r.size.width / 2.0, r.origin.y + r.size.height / 2.0⟩

/-- Whether a point lies in the rectangle, border included. -/
def contains (r : Rect α) (p : Point α) : Bool :=
  r.origin.x ≤ p.x && p.x ≤ r.origin.x + r.size.width &&
    r.origin.y ≤ p.y && p.y ≤ r.origin.y + r.size.height

/-- Move the rectangle. -/
def offset (r : Rect α) (dx dy : α) : Rect α :=
  ⟨r.origin.offset dx dy, r.size⟩

/-- Stretch the rectangle about its own center. -/
def scale (r : Rect α) (factor : α) : Rect α :=
  let center := r.center
  let size : Size α := ⟨r.size.width * factor, r.size.height * factor⟩
  ⟨⟨center.x - size.width / 2.0, center.y - size.height / 2.0⟩, size⟩

/-- The rectangle moved so that its center lies at the origin. -/
def centered (r : Rect α) : Rect α :=
  r.offset (-r.center.x) (-r.center.y)

end Rect

/-! ## Turned rectangles -/

namespace OrientedRect

instance {α : Type} [Scalar α] : Zero (OrientedRect α) where
  zero := ⟨0, 0, 0⟩

variable {α : Type} [PlaneScalar α]

/-- The global coordinates of a local point. -/
def toGlobal (r : OrientedRect α) (p : Point α) : Point α :=
  ((Affine.translation r.anchor.x r.anchor.y).after (Affine.rotation r.angle)).apply p

/-- The four corners in global coordinates, counter-clockwise from the local
origin corner. -/
def corners (r : OrientedRect α) : List (Point α) :=
  let o := r.rect.origin
  let s := r.rect.size
  [ r.toGlobal o,
    r.toGlobal ⟨o.x + s.width, o.y⟩,
    r.toGlobal ⟨o.x + s.width, o.y + s.height⟩,
    r.toGlobal ⟨o.x, o.y + s.height⟩ ]

/-- The global coordinates of the middle. -/
def center (r : OrientedRect α) : Point α :=
  r.toGlobal r.rect.center

end OrientedRect

end CameraMotion
