import CameraMotion.Channel

/-!
# Declarations

What an animation declares to drive while it runs: for every object it touches,
a set of properties.  An object can be touched with no property declared on it.

Main results:

- Theorem `PropertySet.disjoint_iff`: two sets are disjoint exactly when no
  property lies in both.
- Theorem `Declarations.declares_union`: a union declares what either side does.
-/

namespace CameraMotion

/-! ## Sets of properties -/

/-- A set of properties: for each property, whether it is a member. -/
abbrev PropertySet :=
  ByProperty Bool

namespace PropertySet

/-- Whether a property is a member. -/
abbrev contains (s : PropertySet) (p : Property) : Bool :=
  s.get p

/-- The set without members. -/
def empty : PropertySet :=
  .tabulate fun _ => false

/-- Add one member. -/
def insert (s : PropertySet) (p : Property) : PropertySet :=
  s.set p true

/-- The members of a list. -/
def ofList (ps : List Property) : PropertySet :=
  .tabulate fun p => ps.contains p

/-- The members, in listing order. -/
def toList (s : PropertySet) : List Property :=
  Property.all.filter s.contains

/-- What is a member of either set. -/
def union (s t : PropertySet) : PropertySet :=
  .tabulate fun p => s.contains p || t.contains p

/-- Whether the two sets have no member in common. -/
def disjoint (s t : PropertySet) : Bool :=
  Property.all.all fun p => !(s.contains p && t.contains p)

/-- The empty set has no member. -/
@[simp] theorem get_empty (p : Property) : empty.get p = false := by
  simp [empty]

/-- A union holds what either set holds. -/
@[simp] theorem get_union (s t : PropertySet) (p : Property) :
    (s.union t).get p = (s.get p || t.get p) := by
  simp [union]

/-- The listed members are the members. -/
@[simp] theorem mem_toList {s : PropertySet} {p : Property} :
    p ∈ s.toList ↔ s.get p = true := by
  simp [toList]

/-- Two sets are disjoint exactly when no property lies in both. -/
theorem disjoint_iff {s t : PropertySet} :
    s.disjoint t = true ↔ ∀ p, ¬(s.get p = true ∧ t.get p = true) := by
  constructor
  · intro h p hp
    have := List.all_eq_true.mp h p (Property.mem_all p)
    simp_all
  · intro h
    refine List.all_eq_true.mpr fun p _ => ?_
    have := h p
    cases hs : s.contains p <;> cases ht : t.contains p <;> simp_all

end PropertySet

/-! ## Declarations -/

/-- For each object, the properties driven on it, or nothing when the object is
not touched. -/
abbrev Declarations :=
  ByObject (Option PropertySet)

namespace Declarations

/-- The declarations of what touches nothing. -/
def empty : Declarations :=
  .tabulate fun _ => none

/-- The declarations of what touches one object. -/
def single (o : Object) (s : PropertySet) : Declarations :=
  empty.set o (some s)

/-- Whether an object is touched. -/
def touches (d : Declarations) (o : Object) : Bool :=
  (d.get o).isSome

/-- The touched objects, in listing order. -/
def objects (d : Declarations) : List Object :=
  Object.all.filter d.touches

/-- The properties driven on an object; none when it is not touched. -/
def on (d : Declarations) (o : Object) : PropertySet :=
  (d.get o).getD .empty

/-- Whether a channel is driven. -/
def declares (d : Declarations) (c : Channel) : Bool :=
  (d.on c.object).contains c.property

/-- Touch what either side touches, and drive what either side drives. -/
def union (d e : Declarations) : Declarations :=
  .tabulate fun o =>
    if d.touches o || e.touches o then some ((d.on o).union (e.on o)) else none

/-- Nothing touches no object. -/
@[simp] theorem touches_empty (o : Object) : empty.touches o = false := by
  simp [empty, touches]

/-- A union touches what either side touches. -/
@[simp] theorem touches_union (d e : Declarations) (o : Object) :
    (d.union e).touches o = (d.touches o || e.touches o) := by
  rw [touches, union, ByObject.get_tabulate]
  cases d.touches o || e.touches o <;> rfl

/-- The listed objects are the touched ones. -/
@[simp] theorem mem_objects {d : Declarations} {o : Object} :
    o ∈ d.objects ↔ d.touches o = true := by
  simp [objects]

/-- Nothing is driven on an object that is not touched. -/
theorem on_of_not_touches {d : Declarations} {o : Object} (h : d.touches o = false) :
    d.on o = .empty := by
  simp only [touches, Option.isSome_eq_false_iff, Option.isNone_iff_eq_none] at h
  simp [on, h]

/-- Whoever drives a property of an object touches the object. -/
theorem touches_of_declares {d : Declarations} {c : Channel} (h : d.declares c = true) :
    d.touches c.object = true := by
  rw [← Bool.not_eq_false]
  intro untouched
  simp [declares, on_of_not_touches untouched] at h

/-- A union drives, on each object, what either side drives. -/
theorem on_union (d e : Declarations) (o : Object) :
    (d.union e).on o = (d.on o).union (e.on o) := by
  by_cases h : (d.touches o || e.touches o) = true
  · rw [on, union, ByObject.get_tabulate, if_pos h]
    rfl
  · have hd : d.touches o = false := by simp_all
    have he : e.touches o = false := by simp_all
    rw [on_of_not_touches hd, on_of_not_touches he, on_of_not_touches (by simp [hd, he])]
    apply ByProperty.ext
    intro p
    simp

/-- A union declares what either side does. -/
theorem declares_union (d e : Declarations) (c : Channel) :
    (d.union e).declares c = (d.declares c || e.declares c) := by
  simp [declares, on_union]

end Declarations

end CameraMotion
