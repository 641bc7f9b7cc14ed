import CameraMotion.Scalar
import CameraMotion.Violation

/-!
# Clocks

A clock measures one timed transition: how much time has passed, against a
leading delay and a duration.  Its progress runs from 0 to 1.  While it runs, time
passes in it, and its end may be brought forward.
-/

namespace CameraMotion

/-- The time of one transition. -/
@[ext]
structure Clock (α : Type) where
  /-- Seconds since the start. -/
  elapsed : α
  /-- Seconds that the transition takes once it moves. -/
  duration : α
  /-- Seconds before it begins to move. -/
  delay : α
deriving DecidableEq, Repr

namespace Clock

variable {α : Type} [Scalar α]

/-- A clock at its start.  A negative duration or delay counts as none. -/
def start (duration delay : α) : Clock α :=
  { elapsed := 0
    duration := Scalar.max duration 0
    delay := Scalar.max delay 0 }

/-- What a start asks of its caller. -/
def startBreaches (duration delay : α) : List Violation :=
  Violation.unless (0 ≤ duration) .clockDuration ++ Violation.unless (0 ≤ delay) .clockDelay

/-- Let time pass. -/
def advance (c : Clock α) (seconds : α) : Clock α :=
  { c with elapsed := c.elapsed + seconds }

/-- What letting time pass asks of its caller. -/
def advanceBreaches (seconds : α) : List Violation :=
  Violation.unless (0 ≤ seconds) .elapsedSeconds

/-- Shorten the duration to at most `limit`; a negative limit counts as none. -/
def cap (c : Clock α) (limit : α) : Clock α :=
  { c with duration := Scalar.min c.duration (Scalar.max limit 0) }

/-- Whether the transition is over.  One without duration is over together with
its delay; any other needs more than delay and duration together. -/
def finished (c : Clock α) : Bool :=
  if c.duration == 0 then c.delay ≤ c.elapsed else c.duration + c.delay < c.elapsed

/-- The share of the transition that is done: 0 until the delay is over, 1 from
the end on. -/
def progress (c : Clock α) : α :=
  if c.finished then 1
  else if c.duration == 0 then 0
  else Scalar.max (c.elapsed - c.delay) 0 / c.duration

/-! ## Steps -/

/-- What happens to a clock that runs. -/
inductive Step (α : Type) where
  /-- Time passes. -/
  | advance (seconds : α)
  /-- The end is brought forward. -/
  | cap (limit : α)

/-- The time that passes in a step. -/
def Step.seconds {α : Type} [Zero α] : Step α → α
  | .advance x => x
  | .cap _ => 0

/-- What one step does. -/
def step (c : Clock α) : Step α → Clock α
  | .advance x => c.advance x
  | .cap limit => c.cap limit

/-- What several steps do, one after the other. -/
def run (c : Clock α) (steps : List (Step α)) : Clock α :=
  steps.foldl step c

/-- A longer run goes on from where the shorter one ends. -/
theorem run_append (c : Clock α) (before after : List (Step α)) :
    c.run (before ++ after) = (c.run before).run after :=
  List.foldl_append

end Clock

end CameraMotion
