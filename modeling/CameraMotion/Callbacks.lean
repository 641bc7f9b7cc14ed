/-!
# Lifecycle hooks and callbacks

An animation is told when it starts, when it finishes and when it is interrupted.
A set of callbacks keeps, for each of these hooks, the actions to run, in the
order in which they were added.
-/

namespace CameraMotion

/-- A point in the life of an animation. -/
inductive Hook where
  /-- It begins to run. -/
  | start
  /-- It has run to its end. -/
  | finish
  /-- It is removed before its end. -/
  | interrupt
deriving DecidableEq, Repr

/-- The actions attached to each hook. -/
structure Callbacks (κ : Type) where
  /-- Actions to run at the start. -/
  onStart : List κ
  /-- Actions to run at the end. -/
  onFinish : List κ
  /-- Actions to run on an interruption. -/
  onInterrupt : List κ
deriving DecidableEq, Repr

namespace Callbacks

variable {κ : Type}

/-- No action on any hook. -/
def empty : Callbacks κ :=
  ⟨[], [], []⟩

/-- The actions of a hook, in the order in which they run. -/
def actions (c : Callbacks κ) : Hook → List κ
  | .start => c.onStart
  | .finish => c.onFinish
  | .interrupt => c.onInterrupt

/-- Attach one more action to a hook, to run after the others. -/
def add (c : Callbacks κ) (hook : Hook) (action : κ) : Callbacks κ :=
  match hook with
  | .start => { c with onStart := c.onStart ++ [action] }
  | .finish => { c with onFinish := c.onFinish ++ [action] }
  | .interrupt => { c with onInterrupt := c.onInterrupt ++ [action] }

/-- An added action runs last on its hook and on no other. -/
theorem actions_add (c : Callbacks κ) (hook other : Hook) (action : κ) :
    (c.add hook action).actions other =
      c.actions other ++ if other = hook then [action] else [] := by
  cases hook <;> cases other <;> simp [add, actions]

/-- How many actions each hook has. -/
def summary (c : Callbacks κ) : String :=
  "Callbacks \x7b on_start: " ++ Nat.repr c.onStart.length ++
    ", on_finish: " ++ Nat.repr c.onFinish.length ++
    ", on_interrupt: " ++ Nat.repr c.onInterrupt.length ++ " \x7d"

end Callbacks

end CameraMotion
