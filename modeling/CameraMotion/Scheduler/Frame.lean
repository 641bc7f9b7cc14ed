import CameraMotion.Scheduler.Basic
import CameraMotion.Viewport

/-!
# Frames

What happens from one frame to the next: time passes in the running group, and
values are read.

A value is read from the running group; where nobody drives the channel, from what
is kept, which is used up by that; and where nothing is kept, it is the fallback.
-/

namespace CameraMotion.Scheduler

variable {α μ ι : Type} [Scalar α] [Motion α μ]

/-! ## Time -/

/-- Let time pass in every member of a group, in order.  A member that is over
then is told so, leaves its values behind and goes, before the next one is
advanced. -/
def advanceGroup (seconds : α) :
    Group α μ ι → Cache α → Watched α μ ι (Group α μ ι × Cache α)
  | [], cache => pure ([], cache)
  | m :: ms, cache => do
      let a ← m.animation.advance seconds
      if a.finished then
        a.tell .finish
        let cache ← keep cache a
        advanceGroup seconds ms cache
      else
        let (rest, cache) ← advanceGroup seconds ms cache
        pure (⟨m.id, a⟩ :: rest, cache)

/-- Let time pass in the running group.  When nobody is left in it, the next group
takes its place, and runs from the next frame on. -/
def advance (s : Scheduler α μ ι) (seconds : α) : Watched α μ ι (Scheduler α μ ι) := do
  match s.chain with
  | [] => pure s
  | running :: waiting =>
      let (left, cache) ← advanceGroup seconds running s.cache
      let chain := if left.isEmpty then waiting else left :: waiting
      pure { s with chain := chain, cache := cache }

/-! ## Values -/

/-- Read the value of a channel. -/
def read (s : Scheduler α μ ι) (c : Channel) (fallback : PropertyValue α) :
    Watched α μ ι (PropertyValue α × Scheduler α μ ι) := do
  match s.head.find? (·.animation.exposes c) with
  | some m => pure (← m.animation.reading c, s)
  | none => pure ((s.cache.find? c).getD fallback, { s with cache := s.cache.discard c })

/-- The part of the map plane that a viewport shows once every driven value of the
camera is applied.  A value of the wrong kind counts as the viewport's own. -/
def rect (s : Scheduler α μ ι) (v : Viewport α) :
    Watched α μ ι (OrientedRect α × Scheduler α μ ι) := do
  let (scale, s) ← s.read ⟨.mapPlane, .scale⟩ (.scalar v.scale)
  let (angle, s) ← s.read ⟨.mapPlane, .angle⟩ (.scalar v.angle)
  let (position, s) ← s.read ⟨.mapPlane, .position⟩ (.point v.focus)
  let area := v.pixels.centered.scale (scale.scalar?.getD v.scale)
  pure (⟨position.point?.getD v.focus, angle.scalar?.getD v.angle, area⟩, s)

/-! ## Playing -/

/-- Run until no animation is left, for at most `frames` frames of equal length:
let time pass, work out the visible part, and turn the viewport there.  The scale
of the viewport stays. -/
def play (seconds : α) : (frames : Nat) → Scheduler α μ ι → Viewport α →
    Watched α μ ι (List (OrientedRect α) × Scheduler α μ ι × Viewport α)
  | 0, s, v => pure ([], s, v)
  | frames + 1, s, v => do
      if s.hasAnimations then
        let s ← s.advance seconds
        let (shown, s) ← s.rect v
        let v := { v with focus := shown.anchor, angle := shown.angle }
        let (rest, s, v) ← play seconds frames s v
        pure (shown :: rest, s, v)
      else
        pure ([], s, v)

end CameraMotion.Scheduler
