import CameraMotion.Scheduler.Basic

/-!
# Insertion

A new animation joins the first group that takes it, or waits in a group of its
own at the end of the chain.  A group takes it when every member can share the
group with it.  A forced insertion removes the members that cannot, as long as
they may be interrupted; the first one that may not be makes the group refuse.
Members that were removed before that stay removed.
-/

namespace CameraMotion.Scheduler

variable {α μ ι : Type} [Scalar α] [Motion α μ]

/-- What became of a group that was asked to take an animation. -/
structure Scan (α μ ι : Type) where
  /-- Whether the group takes it. -/
  accepted : Bool
  /-- The members that stay. -/
  kept : Group α μ ι
  /-- The kept values, with those of the removed members. -/
  cache : Cache α

/-- Ask the members of a group in order.  A member that has to go is told of the
interruption and leaves its values behind. -/
def scan (candidate : Animation α μ ι) (force : Bool) :
    Group α μ ι → Cache α → Watched α μ ι (Scan α μ ι)
  | [], cache => pure ⟨true, [], cache⟩
  | m :: ms, cache => do
      if ← m.animation.canShareGroup candidate then
        let rest ← scan candidate force ms cache
        pure { rest with kept := m :: rest.kept }
      else if force && m.animation.interruptible then
        m.animation.tell .interrupt
        let cache ← keep cache m.animation
        scan candidate force ms cache
      else
        pure ⟨false, m :: ms, cache⟩

/-- Find a place in a chain of groups for a new member, tell it that it starts,
and put it there. -/
def place (new : Member α μ ι) (force : Bool) :
    List (Group α μ ι) → Cache α → Watched α μ ι (List (Group α μ ι) × Cache α)
  | [], cache => do
      new.animation.tell .start
      pure ([[new]], cache)
  | g :: gs, cache => do
      let scanned ← scan new.animation force g cache
      if scanned.accepted then
        new.animation.tell .start
        pure ((scanned.kept ++ [new]) :: gs, scanned.cache)
      else
        let (rest, cache) ← place new force gs scanned.cache
        pure (scanned.kept :: rest, cache)

/-- Insert an animation under the number `s.nextId`. -/
def add (s : Scheduler α μ ι) (a : Animation α μ ι) (force : Bool) :
    Watched α μ ι (Scheduler α μ ι) := do
  let (chain, cache) ← place ⟨s.nextId, a⟩ force s.chain s.cache
  pure ⟨chain, cache, s.nextId + 1⟩

end CameraMotion.Scheduler
