import CameraMotion.Timing.Durations

/-!
# Tweens

A tween leads a value from a start to a stop along a clock.  The value it shows
is worked out anew from the clock whenever time passes.
-/

namespace CameraMotion

/-- A value of type `β` on its way, timed in `α`. -/
@[ext]
structure Tween (α β : Type) where
  /-- The time of the transition. -/
  clock : Clock α
  /-- The value at the start. -/
  start : β
  /-- The value at the end. -/
  stop : β
  /-- The value shown now. -/
  current : β
deriving DecidableEq, Repr

namespace Tween

variable {α β : Type}

/-! ## Construction -/

section Construction

variable [PlaneScalar α]

/-- A tween at its start. -/
def ofDuration {α : Type} [Scalar α] (duration delay : α) (start stop : β) : Tween α β :=
  ⟨.start duration delay, start, stop, start⟩

/-- Move between two global points, as seen on a viewport. -/
def move (timing : Timing α) (delay : α) (start stop : Point α) (v : Viewport α) :
    Tween α (Point α) :=
  ofDuration (timing.moveDuration start stop v) delay start stop

/-- What a move asks of its caller. -/
def moveBreaches (timing : Timing α) (delay : α) (start stop : Point α) (v : Viewport α) :
    List Violation :=
  Clock.startBreaches (timing.moveDuration start stop v) delay

/-- Turn between two angles. -/
def turn (timing : Timing α) (delay start stop : α) : Tween α α :=
  ofDuration (timing.turnDuration start stop) delay start stop

/-- What a turn asks of its caller. -/
def turnBreaches (timing : Timing α) (delay start stop : α) : List Violation :=
  Clock.startBreaches (timing.turnDuration start stop) delay

/-- Zoom between two scale factors. -/
def zoom {α : Type} [Scalar α] (timing : Timing α) (delay start stop : α) : Tween α α :=
  ofDuration (timing.zoomDuration start stop) delay start stop

/-- What a zoom asks of its caller. -/
def zoomBreaches {α : Type} [Scalar α] (timing : Timing α) (delay start stop : α) :
    List Violation :=
  Timing.zoomBreaches start stop ++ Clock.startBreaches (timing.zoomDuration start stop) delay

end Construction

/-! ## Running -/

variable [Scalar α]

/-- Let time pass and show the value that belongs to the new progress. -/
def advance [Lerp α β] (t : Tween α β) (seconds : α) : Tween α β :=
  let clock := t.clock.advance seconds
  { t with
    clock := clock
    current := Lerp.lerp t.start t.stop clock.progress }

/-- Shorten the duration; the value shown stays until time passes. -/
def cap (t : Tween α β) (limit : α) : Tween α β :=
  { t with clock := t.clock.cap limit }

/-- Whether the transition is over. -/
def finished (t : Tween α β) : Bool :=
  t.clock.finished

/-- Seconds that the transition takes. -/
def duration (t : Tween α β) : α :=
  t.clock.duration

/-- What one step does. -/
def step [Lerp α β] (t : Tween α β) : Clock.Step α → Tween α β
  | .advance x => t.advance x
  | .cap limit => t.cap limit

/-- What several steps do, one after the other. -/
def run [Lerp α β] (t : Tween α β) (steps : List (Clock.Step α)) : Tween α β :=
  steps.foldl step t

/-- A longer run goes on from where the shorter one ends. -/
theorem run_append [Lerp α β] (t : Tween α β) (before after : List (Clock.Step α)) :
    t.run (before ++ after) = (t.run before).run after :=
  List.foldl_append

end Tween

end CameraMotion
