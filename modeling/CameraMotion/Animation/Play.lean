import CameraMotion.Animation.Run

/-!
# Playing animations

What becomes of an animation that is started and in which time then passes step by step,
without a scheduler.
-/

namespace CameraMotion.Animation

variable {α μ ι : Type} [Scalar α] [Motion α μ]

/-- The animation after time has passed in it. -/
def advanced (seconds : α) (a : Animation α μ ι) : Animation α μ ι :=
  (a.advance seconds).value

/-- Let time pass several times. -/
def elapse : List α → Animation α μ ι → Watched α μ ι (Animation α μ ι)
  | [], a => pure a
  | x :: steps, a => do
      let a ← a.advance x
      a.elapse steps

/-- Start an animation, and let time pass several times. -/
def play (steps : List α) (a : Animation α μ ι) : Watched α μ ι (Animation α μ ι) := do
  a.tell .start
  a.elapse steps

/-- The animation after time has passed several times. -/
def elapsed (steps : List α) (a : Animation α μ ι) : Animation α μ ι :=
  steps.foldl (fun a x => a.advanced x) a

/-- No time leaves an animation as it is. -/
@[simp]
theorem elapsed_nil (a : Animation α μ ι) : a.elapsed [] = a :=
  rfl

/-- Time that passes in several steps passes in the first one first. -/
@[simp]
theorem elapsed_cons (x : α) (steps : List α) (a : Animation α μ ι) :
    a.elapsed (x :: steps) = (a.advanced x).elapsed steps :=
  rfl

/-- An animation in which time passes several times becomes what is left after all of them.
-/
@[simp]
theorem value_elapse (steps : List α) (a : Animation α μ ι) :
    (a.elapse steps).value = a.elapsed steps := by
  induction steps generalizing a with
  | nil => rfl
  | cons x steps ih => exact ih (a.advanced x)

/-- Steps of time may be taken in two parts. -/
theorem elapsed_append (before after : List α) (a : Animation α μ ι) :
    a.elapsed (before ++ after) = (a.elapsed before).elapsed after :=
  List.foldl_append

/-- Nobody changes by being started. -/
@[simp]
theorem value_play (steps : List α) (a : Animation α μ ι) :
    (a.play steps).value = a.elapsed steps :=
  value_elapse steps a

end CameraMotion.Animation
