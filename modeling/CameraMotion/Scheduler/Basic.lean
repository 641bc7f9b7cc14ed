import CameraMotion.Animation.Mixing
import CameraMotion.Animation.Snapshot
import CameraMotion.Scheduler.Cache

/-!
# The scheduler

The scheduler keeps animations in a chain of groups.  The members of a group run
side by side and only the first group, the head, is running; the others wait.
Beside the chain it keeps the last values of animations that are gone, until each
of them is read once, so that the camera does not snap back for a frame.

Every animation gets a number when it is inserted.  Numbers grow and are never
given twice.
-/

namespace CameraMotion

/-- An animation in the chain and its number. -/
structure Member (α μ ι : Type) where
  /-- The number given at the insertion. -/
  id : Nat
  /-- The animation in its current state. -/
  animation : Animation α μ ι

/-- Animations that run side by side, in the order of their insertion. -/
abbrev Group (α μ ι : Type) :=
  List (Member α μ ι)

/-- The state of the scheduler. -/
structure Scheduler (α μ ι : Type) where
  /-- The groups, the running one first. -/
  chain : List (Group α μ ι)
  /-- Values of animations that are gone. -/
  cache : Cache α
  /-- The number of the next animation. -/
  nextId : Nat

namespace Scheduler

variable {α μ ι : Type}

/-- The scheduler before its first animation. -/
def empty : Scheduler α μ ι :=
  ⟨[], .empty, 0⟩

/-- Drop every animation and every kept value; nobody is told. -/
def clear (s : Scheduler α μ ι) : Scheduler α μ ι :=
  { s with chain := [], cache := .empty }

/-! ## Views -/

/-- The running group; empty when there is none. -/
def head (s : Scheduler α μ ι) : Group α μ ι :=
  s.chain.headD []

/-- All animations, group after group. -/
def members (s : Scheduler α μ ι) : List (Member α μ ι) :=
  s.chain.flatten

/-- The numbers of each group, in member order. -/
def groups (s : Scheduler α μ ι) : List (List Nat) :=
  s.chain.map fun g => g.map (·.id)

/-- The numbers of the group at a place in the chain; none beyond its end. -/
def group (s : Scheduler α μ ι) (index : Nat) : List Nat :=
  (s.groups[index]?).getD []

/-- The animation with a number, while the scheduler still has it. -/
def animation? (s : Scheduler α μ ι) (id : Nat) : Option (Animation α μ ι) :=
  (s.members.find? (·.id == id)).map (·.animation)

/-- Whether the scheduler still has the animation with a number. -/
def isRunning (s : Scheduler α μ ι) (id : Nat) : Bool :=
  s.members.any (·.id == id)

/-- Whether an animation runs or waits. -/
def hasAnimations (s : Scheduler α μ ι) : Bool :=
  !s.members.isEmpty

/-- Whether a running animation touches an object or a value is kept for it. -/
def animates [Motion α μ] (s : Scheduler α μ ι) (o : Object) : Bool :=
  s.head.any (·.animation.touches o) || s.cache.touches o

/-! ## Keeping values -/

variable [Scalar α] [Motion α μ]

/-- Keep the current values of an animation. -/
def keep (cache : Cache α) (a : Animation α μ ι) : Watched α μ ι (Cache α) := do
  let values ← a.snapshot
  pure (cache.storeAll values)

/-- Keep the current values of an animation that the scheduler does not have. -/
def save (s : Scheduler α μ ι) (a : Animation α μ ι) :
    Watched α μ ι (Scheduler α μ ι) := do
  pure { s with cache := ← keep s.cache a }

end Scheduler

end CameraMotion
