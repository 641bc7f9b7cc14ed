import CameraMotion.Leaf.Reading

/-!
# Animations

An animation is a tree.  Its leaves are motions and follows, each with the
listener that is told of its life; a parallel runs its members side by side and a
sequence runs its stages one after the other.

A parallel remembers the declarations of every member that it was given, also of
those that have finished since; only running members can be read.  Of a sequence
only the first stage counts: what it declares, how it mixes and what it shows are
those of the stage that runs now.

Main results:

- Theorems `Animation.exposesAny_eq`, `Animation.allMixable_eq`,
  `Animation.allInterruptible_eq` and `Animation.durations_eq`: what is worked out
  member by member is the list operation over the members.
- Theorems `Animation.touches_eq` and `Animation.value_properties`: the touched objects
  and the properties driven on them are the declared ones.
- Theorem `Animation.exists_member_of_exposes`: what a parallel shows on a channel is what a
  member shows that drives it.
-/

namespace CameraMotion

/-- An animation with leaves timed in `α`, motions of type `μ` and listeners of
type `ι`. -/
inductive Animation (α μ ι : Type) where
  /-- A leaf and its listener. -/
  | leaf (listener : ι) (body : Leaf α μ)
  /-- Members that run side by side. -/
  | parallel (declared : Declarations) (members : List (Animation α μ ι))
  /-- Stages that run one after the other, the running one first. -/
  | sequence (stages : List (Animation α μ ι))

namespace Animation

variable {α μ ι : Type} [Motion α μ]

/-! ## Declarations -/

/-- What the animation touches and drives. -/
def declarations : Animation α μ ι → Declarations
  | .leaf _ body => body.declarations
  | .parallel declared _ => declared
  | .sequence [] => .empty
  | .sequence (head :: _) => head.declarations

/-- Whether an object is touched.  A sequence passes the question on to the stage that
runs now. -/
def touches : Animation α μ ι → Object → Bool
  | .leaf _ body, o => body.declarations.touches o
  | .parallel declared _, o => declared.touches o
  | .sequence [], _ => false
  | .sequence (head :: _), o => head.touches o

/-- The touched objects are the declared ones. -/
theorem touches_eq (o : Object) :
    (a : Animation α μ ι) → a.touches o = a.declarations.touches o
  | .leaf _ _ => rfl
  | .parallel _ _ => rfl
  | .sequence [] => (Declarations.touches_empty o).symm
  | .sequence (head :: _) => by
      rw [touches, declarations]
      exact touches_eq o head

/-- The listed objects are the touched ones. -/
theorem mem_objects {a : Animation α μ ι} {o : Object} :
    o ∈ a.declarations.objects ↔ a.touches o = true := by
  rw [touches_eq, Declarations.mem_objects]

/-- Who drives a property of an object touches the object. -/
theorem touches_of_declares {a : Animation α μ ι} {c : Channel}
    (drives : a.declarations.declares c = true) : a.touches c.object = true :=
  (touches_eq c.object a).trans (Declarations.touches_of_declares drives)

/-- The properties driven on an object.  A parallel is asked only about an object
that it touches. -/
def properties (o : Object) : Animation α μ ι → Watched α μ ι PropertySet
  | .leaf _ body => body.properties o
  | .parallel declared _ => do
      Watched.breaches (Violation.unless (declared.touches o) .untouchedObject)
      pure (declared.on o)
  | .sequence [] => pure .empty
  | .sequence (head :: _) => head.properties o

mutual

/-- Whether a channel is driven right now, so that it can be read. -/
def exposes (c : Channel) : Animation α μ ι → Bool
  | .leaf _ body => body.declarations.declares c
  | .parallel _ members => exposesAny c members
  | .sequence [] => false
  | .sequence (head :: _) => head.exposes c

/-- Whether some member drives a channel right now. -/
def exposesAny (c : Channel) : List (Animation α μ ι) → Bool
  | [] => false
  | m :: ms => m.exposes c || exposesAny c ms

end

/-- Some member drives a channel when any of them does. -/
theorem exposesAny_eq (c : Channel) (ms : List (Animation α μ ι)) :
    exposesAny c ms = ms.any (·.exposes c) := by
  induction ms with
  | nil => rfl
  | cons m ms ih => simp [exposesAny, ih]

/-- A parallel drives a channel when one of its members does. -/
theorem exposes_parallel {declared : Declarations} {members : List (Animation α μ ι)}
    {c : Channel} : (Animation.parallel declared members).exposes c = true ↔
      ∃ m ∈ members, m.exposes c = true := by
  rw [exposes, exposesAny_eq, List.any_eq_true]

/-- The properties driven on an object are the declared ones. -/
@[simp] theorem value_properties (o : Object) :
    (a : Animation α μ ι) → (a.properties o).value = a.declarations.on o
  | .leaf _ (.motion _) => rfl
  | .leaf _ (.follow _) => rfl
  | .parallel _ _ => rfl
  | .sequence [] => by
      rw [properties, declarations, Declarations.on_of_not_touches (Declarations.touches_empty o)]
      rfl
  | .sequence (head :: _) => by
      rw [properties, declarations]
      exact value_properties o head

/-! ## Mixing flags -/

mutual

/-- Whether the animation may share its objects: all of its members may.  A
sequence without stages may not. -/
def mixable : Animation α μ ι → Bool
  | .leaf _ body => body.mixable
  | .parallel _ members => allMixable members
  | .sequence [] => false
  | .sequence (head :: _) => head.mixable

/-- Whether all members may share their objects. -/
def allMixable : List (Animation α μ ι) → Bool
  | [] => true
  | m :: ms => m.mixable && allMixable ms

end

/-- All members are mixable when each of them is. -/
theorem allMixable_eq (ms : List (Animation α μ ι)) :
    allMixable ms = ms.all (·.mixable) := by
  induction ms with
  | nil => rfl
  | cons m ms ih => simp [allMixable, ih]

mutual

/-- Whether the animation may be removed before its end: all of its members may. -/
def interruptible : Animation α μ ι → Bool
  | .leaf _ body => body.interruptible
  | .parallel _ members => allInterruptible members
  | .sequence [] => true
  | .sequence (head :: _) => head.interruptible

/-- Whether all members may be removed before their end. -/
def allInterruptible : List (Animation α μ ι) → Bool
  | [] => true
  | m :: ms => m.interruptible && allInterruptible ms

end

/-- All members are interruptible when each of them is. -/
theorem allInterruptible_eq (ms : List (Animation α μ ι)) :
    allInterruptible ms = ms.all (·.interruptible) := by
  induction ms with
  | nil => rfl
  | cons m ms ih => simp [allInterruptible, ih]

/-! ## Time -/

variable [Scalar α]

/-- Whether the animation has run to its end: a parallel without members left, a
sequence on its last stage when that stage is over. -/
def finished : Animation α μ ι → Bool
  | .leaf _ body => body.finished
  | .parallel _ members => members.isEmpty
  | .sequence [] => true
  | .sequence [last] => last.finished
  | .sequence _ => false

mutual

/-- Seconds that the animation takes: the slowest member of a parallel, all
remaining stages of a sequence. -/
def duration : Animation α μ ι → α
  | .leaf _ body => body.duration
  | .parallel _ members => (durations members).foldl Scalar.max 0
  | .sequence stages => (durations stages).foldl (· + ·) 0

/-- Seconds that each of several animations takes. -/
def durations : List (Animation α μ ι) → List α
  | [] => []
  | m :: ms => m.duration :: durations ms

end

/-- Durations are taken one by one. -/
theorem durations_eq (ms : List (Animation α μ ι)) :
    durations ms = ms.map (·.duration) := by
  induction ms with
  | nil => rfl
  | cons m ms ih => simp [durations, ih]

/-! ## Values -/

mutual

/-- The value of a channel: of a parallel, the value of its first member that
drives the channel; of a sequence, the value of the running stage. -/
def reading (c : Channel) : Animation α μ ι → Watched α μ ι (PropertyValue α)
  | .leaf _ body => body.reading c
  | .parallel _ members =>
      match firstReading? c members with
      | some value => value
      | none => do
          Logged.emit [.breach (.parallelChannel c), .fault (.parallelChannel c)]
          pure .fallback
  | .sequence [] => do
      Logged.emit [.breach .emptySequence, .fault (.emptySequence c)]
      pure .fallback
  | .sequence (head :: _) => head.reading c

/-- The value of a channel on the first animation that drives it. -/
def firstReading? (c : Channel) :
    List (Animation α μ ι) → Option (Watched α μ ι (PropertyValue α))
  | [] => none
  | m :: ms => if m.exposes c then some (m.reading c) else firstReading? c ms

end

/-- The first value is that of the first animation that drives the channel. -/
theorem firstReading?_eq (c : Channel) (ms : List (Animation α μ ι)) :
    firstReading? c ms = (ms.find? (·.exposes c)).map (·.reading c) := by
  induction ms with
  | nil => rfl
  | cons m ms ih => cases h : m.exposes c <;> simp [firstReading?, h, ih]

/-- What a parallel shows on a channel is what a member shows that drives it. -/
theorem exists_member_of_exposes {declared : Declarations} {members : List (Animation α μ ι)}
    {c : Channel} (drives : (Animation.parallel declared members).exposes c = true) :
    ∃ m ∈ members, m.exposes c = true ∧
      (Animation.parallel declared members).reading c = m.reading c := by
  have some : (members.find? (·.exposes c)).isSome = true :=
    List.find?_isSome.mpr (exposes_parallel.mp drives)
  rcases Option.isSome_iff_exists.mp some with ⟨m, found⟩
  refine ⟨m, List.mem_of_find?_eq_some found, by simpa using List.find?_some found, ?_⟩
  rw [reading, firstReading?_eq, found]
  rfl

/-! ## Construction -/

/-- Put one more part into a parallel, or after the stages of a sequence.  A leaf
has no parts and stays as it is. -/
def add (whole part : Animation α μ ι) : Animation α μ ι :=
  match whole with
  | .leaf listener body => .leaf listener body
  | .parallel declared members =>
      .parallel (declared.union part.declarations) (members ++ [part])
  | .sequence stages => .sequence (stages ++ [part])

/-- The parallel of some members. -/
def together (members : List (Animation α μ ι)) : Animation α μ ι :=
  members.foldl add (.parallel .empty [])

/-- The sequence of some stages. -/
def inTurn (stages : List (Animation α μ ι)) : Animation α μ ι :=
  .sequence stages

end Animation

end CameraMotion
