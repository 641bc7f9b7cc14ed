import CameraMotion.Plane.Rect
import CameraMotion.Violation

/-!
# Viewports

A viewport shows a part of the map plane on a rectangle of pixels.  It is given
by the pixels, the global point at their center, the angle of the map plane and
the number of global units per pixel.  Global coordinates grow upwards and
pixel coordinates grow downwards.

Main definitions:

- `Viewport.toPixels` and `Viewport.toGlobal` convert points.
- `Viewport.globalRect` is the visible part of the map plane.
-/

namespace CameraMotion

/-- A view of the map plane. -/
@[ext]
structure Viewport (α : Type) where
  /-- The pixels. -/
  pixels : Rect α
  /-- The global point shown in the middle of the pixels. -/
  focus : Point α
  /-- The angle of the map plane in radians. -/
  angle : α
  /-- Global units per pixel. -/
  scale : α
deriving DecidableEq, Repr

namespace Viewport

variable {α : Type}

/-! ## Construction -/

/-- A viewport needs a positive scale, whenever one is set. -/
def scaleBreaches [Scalar α] (scale : α) : List Violation :=
  Violation.unless (0 < scale) .viewportScale

/-- The viewport over pixels of the given extents, with the global origin in the
middle, not turned, and one unit per pixel. -/
def ofPixelSize [Scalar α] (width height : α) : Viewport α :=
  { pixels := ⟨0, ⟨width, height⟩⟩
    focus := 0
    angle := 0
    scale := 1 }

/-- The viewport over 640 by 480 pixels. -/
def standard [Scalar α] : Viewport α :=
  ofPixelSize 640.0 480.0

/-! ## Conversion between global and pixel coordinates -/

variable [PlaneScalar α]

/-- The map from global to pixel coordinates: move the focus to the origin, undo
the angle, scale and flip, and move the origin to the middle of the pixels. -/
def pixelMap (v : Viewport α) : Affine α :=
  let center := v.pixels.center
  (((Affine.translation center.x center.y).after
    (Affine.scaling (1 / v.scale) (-1 / v.scale))).after
    (Affine.rotation (-v.angle))).after
    (Affine.translation (-v.focus.x) (-v.focus.y))

/-- The map from pixel to global coordinates.  Where the way there cannot be
undone, it is the identity. -/
def globalMap (v : Viewport α) : Affine α :=
  v.pixelMap.inverse?.getD Affine.identity

/-- The pixel at which a global point is shown. -/
def toPixels (v : Viewport α) (p : Point α) : Point α :=
  v.pixelMap.apply p

/-- The global point shown at a pixel. -/
def toGlobal (v : Viewport α) (p : Point α) : Point α :=
  v.globalMap.apply p

/-! ## The visible part of the map plane -/

/-- The visible part of the map plane, around the focus. -/
def globalRect {α : Type} [Scalar α] (v : Viewport α) : OrientedRect α :=
  ⟨v.focus, v.angle, v.pixels.centered.scale v.scale⟩

end Viewport

end CameraMotion
