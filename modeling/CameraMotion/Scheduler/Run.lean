import CameraMotion.Scheduler.Frame
import CameraMotion.Scheduler.Insertion

/-!
# Runs of the scheduler

Everything that can be done to a scheduler from outside, one operation after the
other, starting from the scheduler before its first animation.  Asking changes
nothing and is no operation; reading is one, since it uses up what is kept.
-/

namespace CameraMotion

variable {α μ ι : Type}

/-- One operation on a scheduler. -/
inductive Operation (α μ ι : Type) where
  /-- Insert an animation, with force or without. -/
  | add (animation : Animation α μ ι) (force : Bool)
  | advance (seconds : α)
  | read (channel : Channel) (fallback : PropertyValue α)
  /-- Work out the visible part of the map plane. -/
  | rect (viewport : Viewport α)
  /-- Keep the values of an animation that the scheduler does not have. -/
  | save (animation : Animation α μ ι)
  | clear

namespace Operation

/-- The animation that an operation inserts, if it inserts one. -/
def added? : Operation α μ ι → Option (Animation α μ ι)
  | .add a _ => some a
  | _ => none

/-- The animations that a run inserts; the one at place `n` gets the number `n`. -/
def added (ops : List (Operation α μ ι)) : List (Animation α μ ι) :=
  ops.filterMap added?

/-- A run without operations inserts nothing. -/
@[simp]
theorem added_nil : added ([] : List (Operation α μ ι)) = [] :=
  rfl

/-- A run in two parts inserts what both parts insert. -/
@[simp]
theorem added_append (before after : List (Operation α μ ι)) :
    added (before ++ after) = added before ++ added after := by
  simp [added]

/-- One operation inserts what it inserts. -/
@[simp]
theorem added_singleton (op : Operation α μ ι) : added [op] = op.added?.toList := by
  cases op <;> rfl

end Operation

namespace Scheduler

variable [Scalar α] [Motion α μ]

/-- What one operation does. -/
def step (s : Scheduler α μ ι) : Operation α μ ι → Watched α μ ι (Scheduler α μ ι)
  | .add a force => s.add a force
  | .advance seconds => s.advance seconds
  | .read c fallback => Prod.snd <$> s.read c fallback
  | .rect v => Prod.snd <$> s.rect v
  | .save a => s.save a
  | .clear => pure s.clear

/-- What several operations do, one after the other. -/
def runFrom (s : Scheduler α μ ι) :
    List (Operation α μ ι) → Watched α μ ι (Scheduler α μ ι)
  | [] => pure s
  | op :: ops => do
      let s ← s.step op
      s.runFrom ops

/-- A run from the beginning. -/
def run (ops : List (Operation α μ ι)) : Watched α μ ι (Scheduler α μ ι) :=
  runFrom .empty ops

/-- A run without operations leaves the scheduler as it is at first. -/
@[simp]
theorem run_nil : (run [] : Watched α μ ι (Scheduler α μ ι)) = pure .empty :=
  rfl

end Scheduler

end CameraMotion
