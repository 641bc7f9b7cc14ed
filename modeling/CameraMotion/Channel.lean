/-!
# Channels

A channel is one property of one object: what an animation drives and what the
scheduler hands out one value for.  This module also holds the two total tables
over objects and over properties, from which sets, declarations and the value
cache are built.

Main results:

- Theorems `ByProperty.ext` and `ByObject.ext`: a table is determined by its
  entries.
- Theorems `ByProperty.get_set` and `ByObject.get_set`: writing one entry changes
  that entry and no other.
- Theorem `Channel.mem_all`: the list of channels is complete.
-/

namespace CameraMotion

/-! ## Objects, properties and channels -/

/-- What an animation can act on. -/
inductive Object where
  /-- The map plane seen through the viewport, that is, the camera. -/
  | mapPlane
  /-- The marker of the user's own position. -/
  | myPosition
  /-- The marker of the selection. -/
  | selection
deriving DecidableEq, Repr

/-- What an animation can drive on an object. -/
inductive Property where
  /-- A global position. -/
  | position
  /-- An angle in radians. -/
  | angle
  /-- A scale factor. -/
  | scale
deriving DecidableEq, Repr

/-- Every object, in listing order. -/
def Object.all : List Object :=
  [.mapPlane, .myPosition, .selection]

/-- Every property, in listing order. -/
def Property.all : List Property :=
  [.position, .angle, .scale]

/-- The name of an object in messages. -/
def Object.name : Object → String
  | .mapPlane => "MapPlane"
  | .myPosition => "MyPosition"
  | .selection => "Selection"

/-- The name of a property in messages. -/
def Property.name : Property → String
  | .position => "Position"
  | .angle => "Angle"
  | .scale => "Scale"

/-- One property of one object. -/
structure Channel where
  /-- The object. -/
  object : Object
  /-- The property of it. -/
  property : Property
deriving DecidableEq, Repr

/-- Every channel, objects first and properties within an object. -/
def Channel.all : List Channel :=
  Object.all.flatMap fun o => Property.all.map fun p => ⟨o, p⟩

/-- The name of a channel in messages. -/
def Channel.name (c : Channel) : String :=
  c.object.name ++ "." ++ c.property.name

/-- Every object is listed. -/
@[simp] theorem Object.mem_all (o : Object) : o ∈ Object.all := by
  cases o <;> decide

/-- Every property is listed. -/
@[simp] theorem Property.mem_all (p : Property) : p ∈ Property.all := by
  cases p <;> decide

/-- Every channel is listed. -/
@[simp] theorem Channel.mem_all (c : Channel) : c ∈ Channel.all := by
  rcases c with ⟨o, p⟩
  cases o <;> cases p <;> decide

/-! ## Tables over properties -/

/-- One entry for every property. -/
structure ByProperty (β : Type) where
  /-- The entry for positions. -/
  position : β
  /-- The entry for angles. -/
  angle : β
  /-- The entry for scale factors. -/
  scale : β
deriving DecidableEq, Repr

namespace ByProperty

variable {β : Type}

/-- The entry for a property. -/
def get (t : ByProperty β) : Property → β
  | .position => t.position
  | .angle => t.angle
  | .scale => t.scale

/-- The table of a function. -/
def tabulate (f : Property → β) : ByProperty β :=
  ⟨f .position, f .angle, f .scale⟩

/-- Replace the entry for one property. -/
def set (t : ByProperty β) (p : Property) (x : β) : ByProperty β :=
  tabulate fun q => if q = p then x else t.get q

/-- A tabulated function is read back. -/
@[simp] theorem get_tabulate (f : Property → β) (p : Property) : (tabulate f).get p = f p := by
  cases p <;> rfl

/-- Writing one entry changes that entry and no other. -/
@[simp] theorem get_set (t : ByProperty β) (p q : Property) (x : β) :
    (t.set p x).get q = if q = p then x else t.get q := by
  simp [set]

/-- A table is determined by its entries. -/
theorem ext {s t : ByProperty β} (h : ∀ p, s.get p = t.get p) : s = t := by
  rcases s with ⟨a, b, c⟩
  rcases t with ⟨a', b', c'⟩
  have ha : a = a' := h .position
  have hb : b = b' := h .angle
  have hc : c = c' := h .scale
  subst ha hb hc
  rfl

end ByProperty

/-! ## Tables over objects -/

/-- One entry for every object. -/
structure ByObject (β : Type) where
  /-- The entry for the map plane. -/
  mapPlane : β
  /-- The entry for the user's own position. -/
  myPosition : β
  /-- The entry for the selection. -/
  selection : β
deriving DecidableEq, Repr

namespace ByObject

variable {β : Type}

/-- The entry for an object. -/
def get (t : ByObject β) : Object → β
  | .mapPlane => t.mapPlane
  | .myPosition => t.myPosition
  | .selection => t.selection

/-- The table of a function. -/
def tabulate (f : Object → β) : ByObject β :=
  ⟨f .mapPlane, f .myPosition, f .selection⟩

/-- Replace the entry for one object. -/
def set (t : ByObject β) (o : Object) (x : β) : ByObject β :=
  tabulate fun q => if q = o then x else t.get q

/-- A tabulated function is read back. -/
@[simp] theorem get_tabulate (f : Object → β) (o : Object) : (tabulate f).get o = f o := by
  cases o <;> rfl

/-- Writing one entry changes that entry and no other. -/
@[simp] theorem get_set (t : ByObject β) (o q : Object) (x : β) :
    (t.set o x).get q = if q = o then x else t.get q := by
  simp [set]

/-- A table is determined by its entries. -/
theorem ext {s t : ByObject β} (h : ∀ o, s.get o = t.get o) : s = t := by
  rcases s with ⟨a, b, c⟩
  rcases t with ⟨a', b', c'⟩
  have ha : a = a' := h .mapPlane
  have hb : b = b' := h .myPosition
  have hc : c = c' := h .selection
  subst ha hb hc
  rfl

end ByObject

end CameraMotion
