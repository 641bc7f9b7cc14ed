import CameraMotion.Motion.Ramp
import CameraMotion.Scalar.Double
import CameraMotion.Scheduler.Run
import Mathlib.Data.List.Induction

/-!
# Laws of runs

A run of the scheduler can be taken apart wherever one likes, and what every operation
keeps holds after all of them.

Main results:

- Theorems `Scheduler.run_append` and `Scheduler.run_concat`: a longer run goes on
  from where the shorter one ends.
- Theorem `Scheduler.run_invariant`: what holds at first and is kept by every
  operation holds after every run.
-/

namespace CameraMotion

variable {α μ ι : Type}

namespace Scheduler

/-- All members are those of the running group and those who wait. -/
theorem members_eq (s : Scheduler α μ ι) : s.members = s.head ++ s.chain.tail.flatten := by
  rcases s with ⟨_ | ⟨g, gs⟩, cache, nextId⟩ <;> simp [members, head]

variable [Scalar α] [Motion α μ]

/-! ## Operations that leave the chain alone -/

/-- A read leaves the chain alone. -/
@[simp]
theorem chain_read (s : Scheduler α μ ι) (c : Channel) (fallback : PropertyValue α) :
    (s.read c fallback).value.2.chain = s.chain := by
  unfold read
  split <;> rfl

/-- A read gives no number. -/
@[simp]
theorem nextId_read (s : Scheduler α μ ι) (c : Channel) (fallback : PropertyValue α) :
    (s.read c fallback).value.2.nextId = s.nextId := by
  unfold read
  split <;> rfl

/-- To work out the visible part of the map plane leaves the chain alone. -/
@[simp]
theorem chain_rect (s : Scheduler α μ ι) (v : Viewport α) :
    (s.rect v).value.2.chain = s.chain := by
  simp [rect]

/-- To work out the visible part of the map plane gives no number. -/
@[simp]
theorem nextId_rect (s : Scheduler α μ ι) (v : Viewport α) :
    (s.rect v).value.2.nextId = s.nextId := by
  simp [rect]

/-- To keep values from outside leaves the chain alone. -/
@[simp]
theorem chain_save (s : Scheduler α μ ι) (a : Animation α μ ι) :
    (s.save a).value.chain = s.chain :=
  rfl

/-- To keep values from outside gives no number. -/
@[simp]
theorem nextId_save (s : Scheduler α μ ι) (a : Animation α μ ι) :
    (s.save a).value.nextId = s.nextId :=
  rfl

/-! ## Runs -/

/-- Several operations may be carried out in two parts. -/
theorem value_runFrom_append (s : Scheduler α μ ι) (before after : List (Operation α μ ι)) :
    (s.runFrom (before ++ after)).value = ((s.runFrom before).value.runFrom after).value := by
  induction before generalizing s with
  | nil => rfl
  | cons op ops ih => simpa [runFrom] using ih (s.step op).value

/-- Several operations are logged in two parts. -/
theorem log_runFrom_append (s : Scheduler α μ ι) (before after : List (Operation α μ ι)) :
    (s.runFrom (before ++ after)).log =
      (s.runFrom before).log ++ ((s.runFrom before).value.runFrom after).log := by
  induction before generalizing s with
  | nil => rfl
  | cons op ops ih => simp [runFrom, ih (s.step op).value]

/-- A longer run goes on from where the shorter one ends. -/
theorem run_append (before after : List (Operation α μ ι)) :
    run (before ++ after) = run before >>= (·.runFrom after) :=
  Logged.ext (value_runFrom_append _ before after) (log_runFrom_append _ before after)

/-- A run that is longer by one operation does that operation last. -/
theorem run_concat (ops : List (Operation α μ ι)) (op : Operation α μ ι) :
    run (ops ++ [op]) = run ops >>= (·.step op) := by
  rw [run_append]
  ext1 <;> simp [runFrom]

/-- What holds at first and is kept by every operation of a run holds after it. -/
theorem run_invariant {P : Scheduler α μ ι → Prop} {Q : Operation α μ ι → Prop}
    (first : P .empty) (kept : ∀ s op, Q op → P s → P (s.step op).value)
    (ops : List (Operation α μ ι)) (allowed : ∀ op ∈ ops, Q op) : P (run ops).value := by
  induction ops using List.reverseRecOn with
  | nil => exact first
  | append_singleton ops op ih =>
      rw [run_concat, Logged.value_bind]
      refine kept _ op (allowed op (by simp)) (ih fun op' h => allowed op' ?_)
      exact List.mem_append_left _ h

end Scheduler

/-! ## Animations to try out -/

/-- A ramp of doubles that starts from zero and drives some properties of the map
plane for some seconds. -/
def Animation.ramp (listener : Nat) (driven : List Property) (mixable interruptible : Bool)
    (seconds : Float) : Animation Float (Ramp Float) Nat :=
  .leaf listener
    (.motion ⟨.single .mapPlane (.ofList driven), mixable, interruptible, seconds, 0, .scalar 0⟩)

end CameraMotion
