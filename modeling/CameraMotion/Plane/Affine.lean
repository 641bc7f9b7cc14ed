import CameraMotion.Plane.Point

/-!
# Affine maps of the plane

An affine map is kept as the six numbers of the matrix

```
| a  c  tx |
| b  d  ty |
| 0  0  1  |
```

Composition `f.after g` applies `g` first, as the product of the two matrices
does.
-/

namespace CameraMotion

/-- An affine map of the plane. -/
@[ext]
structure Affine (α : Type) where
  /-- Horizontal image of a horizontal step. -/
  a : α
  /-- Vertical image of a horizontal step. -/
  b : α
  /-- Horizontal image of a vertical step. -/
  c : α
  /-- Vertical image of a vertical step. -/
  d : α
  /-- Horizontal image of the origin. -/
  tx : α
  /-- Vertical image of the origin. -/
  ty : α
deriving DecidableEq, Repr

namespace Affine

variable {α : Type} [Scalar α]

/-! ## Elementary maps -/

/-- The map that moves nothing. -/
def identity : Affine α :=
  ⟨1, 0, 0, 1, 0, 0⟩

/-- Move every point. -/
def translation (x y : α) : Affine α :=
  ⟨1, 0, 0, 1, x, y⟩

/-- Stretch the two axes. -/
def scaling (sx sy : α) : Affine α :=
  ⟨sx, 0, 0, sy, 0, 0⟩

/-- Turn the plane around the origin. -/
def rotation {α : Type} [PlaneScalar α] (angle : α) : Affine α :=
  let c := PlaneScalar.cos angle
  let s := PlaneScalar.sin angle
  ⟨c, s, -s, c, 0, 0⟩

/-! ## Application, composition and inversion -/

/-- The image of a point. -/
def apply (m : Affine α) (p : Point α) : Point α :=
  ⟨m.a * p.x + m.c * p.y + m.tx, m.b * p.x + m.d * p.y + m.ty⟩

/-- Apply `n` first and `m` to its result. -/
def after (m n : Affine α) : Affine α :=
  { a := m.a * n.a + m.c * n.b
    b := m.b * n.a + m.d * n.b
    c := m.a * n.c + m.c * n.d
    d := m.b * n.c + m.d * n.d
    tx := m.a * n.tx + m.c * n.ty + m.tx
    ty := m.b * n.tx + m.d * n.ty + m.ty }

/-- Compose a chain of maps; the last one is applied first.  The empty chain is
the identity and a single map stays as it is. -/
def chain : List (Affine α) → Affine α
  | [] => identity
  | m :: ms => ms.foldl after m

/-- How much the map enlarges areas, with a sign for a flip. -/
def det (m : Affine α) : α :=
  m.a * m.d - m.b * m.c

/-- The map that undoes `m`, unless its determinant is negligible. -/
def inverse? (m : Affine α) : Option (Affine α) :=
  if Scalar.abs m.det < Scalar.epsilon then
    none
  else
    let inv := 1 / m.det
    let a := m.d * inv
    let b := -m.b * inv
    let c := -m.c * inv
    let d := m.a * inv
    some ⟨a, b, c, d, -(a * m.tx + c * m.ty), -(b * m.tx + d * m.ty)⟩

end Affine

end CameraMotion
