import CameraMotion.Viewport

/-!
# Viewports with their maps at hand

Many points are converted between two changes of a viewport, so both of its maps are
worked out whenever a setting changes, and kept beside the settings.

Main results:

- Theorem `MappedViewport.change_ofViewport`: a change leaves the maps that belong to
  the settings after it.
- Theorem `MappedViewport.foldl_change`: so does any number of changes.
-/

namespace CameraMotion

/-- A change of one setting of a viewport. -/
inductive Viewport.Change (α : Type) where
  /-- Show the map plane on other pixels. -/
  | pixels (r : Rect α)
  /-- Show another global point in the middle. -/
  | focus (p : Point α)
  /-- Turn the map plane. -/
  | angle (x : α)
  /-- Show more or fewer global units per pixel. -/
  | scale (x : α)
deriving DecidableEq, Repr

namespace Viewport.Change

variable {α : Type}

/-- The viewport with the new setting. -/
def apply (v : Viewport α) : Change α → Viewport α
  | .pixels r => { v with pixels := r }
  | .focus p => { v with focus := p }
  | .angle x => { v with angle := x }
  | .scale x => { v with scale := x }

/-- What a change asks of its caller. -/
def breaches [Scalar α] : Change α → List Violation
  | .scale x => Viewport.scaleBreaches x
  | _ => []

end Viewport.Change

/-- A viewport together with its maps. -/
@[ext]
structure MappedViewport (α : Type) where
  /-- The settings. -/
  viewport : Viewport α
  /-- The map from global to pixel coordinates. -/
  pixelMap : Affine α
  /-- The map from pixel to global coordinates. -/
  globalMap : Affine α
deriving DecidableEq, Repr

namespace MappedViewport

variable {α : Type} [PlaneScalar α]

/-! ## Construction and change -/

/-- Work out both maps.  Where the way to the pixels cannot be undone, the way back is
the identity. -/
def refresh (m : MappedViewport α) : MappedViewport α :=
  let pixelMap := m.viewport.pixelMap
  { m with
    pixelMap := pixelMap
    globalMap := pixelMap.inverse?.getD Affine.identity }

/-- A viewport with its maps worked out. -/
def ofViewport (v : Viewport α) : MappedViewport α :=
  refresh ⟨v, Affine.identity, Affine.identity⟩

/-- Change one setting. -/
def change (m : MappedViewport α) (c : Viewport.Change α) : MappedViewport α :=
  refresh { m with viewport := c.apply m.viewport }

/-! ## Conversion -/

/-- The pixel at which a global point is shown. -/
def toPixels (m : MappedViewport α) (p : Point α) : Point α :=
  m.pixelMap.apply p

/-- The global point shown at a pixel. -/
def toGlobal (m : MappedViewport α) (p : Point α) : Point α :=
  m.globalMap.apply p

/-- The visible part of the map plane. -/
def globalRect {α : Type} [Scalar α] (m : MappedViewport α) : OrientedRect α :=
  m.viewport.globalRect

/-! ## The maps are those of the settings -/

/-- The settings of a mapped viewport are those that it was made from. -/
@[simp] theorem viewport_ofViewport (v : Viewport α) : (ofViewport v).viewport = v :=
  rfl

/-- The kept map to the pixels is that of the settings. -/
@[simp] theorem toPixels_ofViewport (v : Viewport α) (p : Point α) :
    (ofViewport v).toPixels p = v.toPixels p :=
  rfl

/-- The kept map to the plane is that of the settings. -/
@[simp] theorem toGlobal_ofViewport (v : Viewport α) (p : Point α) :
    (ofViewport v).toGlobal p = v.toGlobal p :=
  rfl

/-- A change leaves the maps that belong to the settings after it. -/
@[simp] theorem change_ofViewport (v : Viewport α) (c : Viewport.Change α) :
    (ofViewport v).change c = ofViewport (c.apply v) :=
  rfl

/-- So does any number of changes. -/
theorem foldl_change (v : Viewport α) (changes : List (Viewport.Change α)) :
    changes.foldl change (ofViewport v) =
      ofViewport (changes.foldl Viewport.Change.apply v) := by
  induction changes generalizing v with
  | nil => rfl
  | cons c cs ih => rw [List.foldl_cons, List.foldl_cons, change_ofViewport, ih]

end MappedViewport

end CameraMotion
