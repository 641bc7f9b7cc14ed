import CameraMotion.Declarations
import CameraMotion.PropertyValue
import CameraMotion.Tween

/-!
# Follows

A follow moves, turns and zooms the camera in one step.  Only the parts whose
start and stop differ get a tween, so a plain move never claims the angle or the
scale of the camera.

What a follow drives is noted down when it gets a tween, and is not worked out from
the tweens again.  The notes and the tweens are kept in step: by the calls that add a
tween, since they note its property, and by time and caps, since they neither add nor
remove one.

Main results:

- Theorems `Follow.InStep.insert_position`, `Follow.InStep.insert_angle`,
  `Follow.InStep.insert_scale` and `Follow.InStep.map`: what is done to a follow keeps
  its notes and its tweens in step.
- Theorem `Follow.reading?_isSome_iff`: a follow can be read exactly on the
  properties that it drives.
-/

namespace CameraMotion

namespace Follow

variable {β γ δ : Type}

/-! ## Notes and parts -/

/-- The properties that are noted down are those of the parts that are there. -/
def InStep (driven : PropertySet) (position : Option β) (angle : Option γ)
    (scale : Option δ) : Prop :=
  driven = ⟨position.isSome, angle.isSome, scale.isSome⟩

namespace InStep

variable {driven : PropertySet} {position : Option β} {angle : Option γ} {scale : Option δ}

/-- Nothing is noted down for no parts. -/
theorem empty : InStep .empty (none : Option β) (none : Option γ) (none : Option δ) :=
  rfl

/-- Who gets a move notes the position. -/
theorem insert_position (h : InStep driven position angle scale) (move : β) :
    InStep (driven.insert .position) (some move) angle scale := by
  rw [InStep, h]
  rfl

/-- Who gets a turn notes the angle. -/
theorem insert_angle (h : InStep driven position angle scale) (turn : γ) :
    InStep (driven.insert .angle) position (some turn) scale := by
  rw [InStep, h]
  rfl

/-- Who gets a zoom notes the scale. -/
theorem insert_scale (h : InStep driven position angle scale) (zoom : δ) :
    InStep (driven.insert .scale) position angle (some zoom) := by
  rw [InStep, h]
  rfl

/-- The notes stay right when each part is replaced by another one. -/
theorem map {β' γ' δ' : Type} (h : InStep driven position angle scale) (f : β → β')
    (g : γ → γ') (k : δ → δ') :
    InStep driven (position.map f) (angle.map g) (scale.map k) := by
  simpa [InStep] using h

end InStep

end Follow

/-- A camera transition. -/
structure Follow (α : Type) where
  /-- The constants behind the durations. -/
  timing : Timing α
  /-- The move, if there is one. -/
  position : Option (Tween α (Point α))
  /-- The turn, if there is one. -/
  angle : Option (Tween α α)
  /-- The zoom, if there is one. -/
  scale : Option (Tween α α)
  /-- The driven properties, as they have been noted down. -/
  driven : PropertySet
  /-- The driven properties are those with a tween. -/
  inStep : Follow.InStep driven position angle scale
deriving DecidableEq, Repr

namespace Follow

variable {α : Type}

/-- Follows with the same parts are the same, since their notes are in step. -/
@[ext]
theorem ext {f g : Follow α} (timing : f.timing = g.timing)
    (position : f.position = g.position) (angle : f.angle = g.angle)
    (scale : f.scale = g.scale) : f = g := by
  rcases f with ⟨t, p, a, s, _, rfl⟩
  rcases g with ⟨t', p', a', s', _, rfl⟩
  obtain rfl : t = t' := timing
  obtain rfl : p = p' := position
  obtain rfl : a = a' := angle
  obtain rfl : s = s' := scale
  rfl

/-! ## Construction -/

/-- The follow that does nothing. -/
def empty (timing : Timing α) : Follow α :=
  ⟨timing, none, none, none, .empty, .empty⟩

/-- Keep a move, and note that the position is driven. -/
def putMove (f : Follow α) (move : Tween α (Point α)) : Follow α :=
  { f with
    position := some move
    driven := f.driven.insert .position
    inStep := f.inStep.insert_position move }

/-- Keep a turn, and note that the angle is driven. -/
def putTurn (f : Follow α) (turn : Tween α α) : Follow α :=
  { f with
    angle := some turn
    driven := f.driven.insert .angle
    inStep := f.inStep.insert_angle turn }

/-- Keep a zoom, and note that the scale is driven. -/
def putZoom (f : Follow α) (zoom : Tween α α) : Follow α :=
  { f with
    scale := some zoom
    driven := f.driven.insert .scale
    inStep := f.inStep.insert_scale zoom }

section Construction

variable [PlaneScalar α]

/-- Also move, if the two points differ. -/
def withMove (f : Follow α) (start stop : Point α) (v : Viewport α) : Follow α :=
  if start == stop then f else f.putMove (.move f.timing 0 start stop v)

/-- Also turn, if the two angles differ. -/
def withTurn (f : Follow α) (start stop : α) : Follow α :=
  if start == stop then f else f.putTurn (.turn f.timing 0 start stop)

/-- Also zoom, if the two scale factors differ. -/
def withZoom {α : Type} [Scalar α] (f : Follow α) (start stop : α) : Follow α :=
  if start == stop then f else f.putZoom (.zoom f.timing 0 start stop)

/-- What adding a move asks of its caller. -/
def moveBreaches (f : Follow α) (start stop : Point α) (v : Viewport α) : List Violation :=
  if start == stop then [] else Tween.moveBreaches f.timing 0 start stop v

/-- What adding a turn asks of its caller. -/
def turnBreaches (f : Follow α) (start stop : α) : List Violation :=
  if start == stop then [] else Tween.turnBreaches f.timing 0 start stop

/-- What adding a zoom asks of its caller. -/
def zoomBreaches {α : Type} [Scalar α] (f : Follow α) (start stop : α) : List Violation :=
  if start == stop then [] else Tween.zoomBreaches f.timing 0 start stop

end Construction

/-! ## Declarations and values -/

/-- A follow touches the map plane and nothing else. -/
def declarations (f : Follow α) : Declarations :=
  .single .mapPlane f.driven

/-- The value of a property, if there is a tween for it. -/
def reading? (f : Follow α) : Property → Option (PropertyValue α)
  | .position => f.position.map fun t => .point t.current
  | .angle => f.angle.map fun t => .scalar t.current
  | .scale => f.scale.map fun t => .scalar t.current

/-- A follow can be read exactly on the properties that it drives. -/
theorem reading?_isSome_iff {f : Follow α} {p : Property} :
    (f.reading? p).isSome = true ↔ f.driven.contains p = true := by
  rw [f.inStep]
  cases p <;> simp [reading?, ByProperty.get]

/-! ## Running -/

variable [Scalar α]

/-- Let time pass in every part. -/
def advance (f : Follow α) (seconds : α) : Follow α :=
  { f with
    position := f.position.map (·.advance seconds)
    angle := f.angle.map (·.advance seconds)
    scale := f.scale.map (·.advance seconds)
    inStep := f.inStep.map _ _ _ }

/-- What letting time pass asks of its caller; without parts there is nobody to
ask. -/
def advanceBreaches (f : Follow α) (seconds : α) : List Violation :=
  if f.position.isSome || f.angle.isSome || f.scale.isSome then
    Clock.advanceBreaches seconds
  else []

/-- Whether every part is over. -/
def finished (f : Follow α) : Bool :=
  f.angle.all (·.finished) && f.scale.all (·.finished) && f.position.all (·.finished)

/-- Seconds that the slowest part takes. -/
def duration (f : Follow α) : α :=
  Scalar.max
    (Scalar.max ((f.angle.map (·.duration)).getD 0) ((f.scale.map (·.duration)).getD 0))
    ((f.position.map (·.duration)).getD 0)

/-- Shorten every part. -/
def cap (f : Follow α) (limit : α) : Follow α :=
  { f with
    position := f.position.map (·.cap limit)
    angle := f.angle.map (·.cap limit)
    scale := f.scale.map (·.cap limit)
    inStep := f.inStep.map _ _ _ }

/-- What one step does. -/
def step (f : Follow α) : Clock.Step α → Follow α
  | .advance x => f.advance x
  | .cap limit => f.cap limit

/-- What several steps do, one after the other. -/
def run (f : Follow α) (steps : List (Clock.Step α)) : Follow α :=
  steps.foldl step f

/-- Time and caps change nothing of what is noted down. -/
theorem driven_run (f : Follow α) (steps : List (Clock.Step α)) :
    (f.run steps).driven = f.driven := by
  induction steps generalizing f with
  | nil => rfl
  | cons s steps ih => exact (ih (f.step s)).trans (by cases s <;> rfl)

end Follow

end CameraMotion
