import CameraMotion.Scheduler.Run
import Mathlib.Data.List.Basic

/-!
# Numbers in the chain, animations in an arena

A scheduler may have its animations in an arena, under their numbers, and only the
numbers in its chain.  Then every operation changes two things, which might come
apart: a number of the chain might have no animation, or an animation no number.
This module spells that scheduler out, with what it does about a number that has no
animation.
-/

namespace CameraMotion

/-- The animations that a scheduler has, and what it keeps beside them. -/
structure Store (α μ ι : Type) where
  /-- The animations, under their numbers. -/
  arena : Std.ExtTreeMap Nat (Animation α μ ι)
  /-- The number of the next animation. -/
  nextId : Nat
  /-- Values of animations that are gone. -/
  cache : Cache α
  /-- Numbers of the chain that had no animation when it was asked for. -/
  missing : List Nat

/-- A scheduler with its animations in an arena. -/
structure ArenaScheduler (α μ ι : Type) where
  /-- The groups of numbers, the running one first. -/
  chain : List (List Nat)
  store : Store α μ ι

variable {α μ ι : Type}

namespace Store

/-- Put an animation into the arena, under a number that was never used before. -/
def insert (store : Store α μ ι) (a : Animation α μ ι) : Nat × Store α μ ι :=
  (store.nextId,
    { store with arena := store.arena.insert store.nextId a, nextId := store.nextId + 1 })

/-- Note that a number has no animation. -/
def miss (store : Store α μ ι) (id : Nat) : Store α μ ι :=
  { store with missing := store.missing ++ [id] }

variable [Scalar α] [Motion α μ]

/-- Take the animation with a number out of the arena.  It is told of the interruption
and leaves its values behind. -/
def evict (store : Store α μ ι) (id : Nat) : Watched α μ ι (Store α μ ι) :=
  match store.arena[id]? with
  | none => pure (store.miss id)
  | some a => do
      a.tell .interrupt
      let cache ← Scheduler.keep store.cache a
      pure { store with arena := store.arena.erase id, cache := cache }

end Store

namespace ArenaScheduler

/-! ## Operations -/

def empty : ArenaScheduler α μ ι :=
  ⟨[], ⟨∅, 0, .empty, []⟩⟩

/-- What became of a group of numbers that was asked to take an animation. -/
structure Scan (α μ ι : Type) where
  accepted : Bool
  /-- The numbers that stay. -/
  kept : List Nat
  store : Store α μ ι

variable [Scalar α] [Motion α μ]

/-- Ask the members of a group in order.  A number without an animation is dropped. -/
def scan (candidate : Animation α μ ι) (force : Bool) :
    List Nat → Store α μ ι → Watched α μ ι (Scan α μ ι)
  | [], store => pure ⟨true, [], store⟩
  | id :: ids, store =>
      match store.arena[id]? with
      | none => scan candidate force ids (store.miss id)
      | some member => do
          if ← member.canShareGroup candidate then
            let rest ← scan candidate force ids store
            pure { rest with kept := id :: rest.kept }
          else if force && member.interruptible then
            let store ← store.evict id
            scan candidate force ids store
          else
            pure ⟨false, id :: ids, store⟩

/-- Find a place in a chain for an animation, tell it that it starts, put it into the
arena, and its number into the chain. -/
def place (a : Animation α μ ι) (force : Bool) :
    List (List Nat) → Store α μ ι → Watched α μ ι (Nat × List (List Nat) × Store α μ ι)
  | [], store => do
      a.tell .start
      let (id, store) := store.insert a
      pure (id, [[id]], store)
  | ids :: chain, store => do
      let scanned ← scan a force ids store
      if scanned.accepted then
        a.tell .start
        let (id, store) := scanned.store.insert a
        pure (id, (scanned.kept ++ [id]) :: chain, store)
      else
        let (id, rest, store) ← place a force chain scanned.store
        pure (id, scanned.kept :: rest, store)

/-- Insert an animation; the number that it gets comes with the result. -/
def add (t : ArenaScheduler α μ ι) (a : Animation α μ ι) (force : Bool) :
    Watched α μ ι (Nat × ArenaScheduler α μ ι) := do
  let (id, chain, store) ← place a force t.chain t.store
  pure (id, ⟨chain, store⟩)

/-- Let time pass in every animation of a group, in order.  A number without an
animation is dropped. -/
def advanceGroup (seconds : α) :
    List Nat → Store α μ ι → Watched α μ ι (List Nat × Store α μ ι)
  | [], store => pure ([], store)
  | id :: ids, store =>
      match store.arena[id]? with
      | none => advanceGroup seconds ids (store.miss id)
      | some a => do
          let a ← a.advance seconds
          if a.finished then
            a.tell .finish
            let cache ← Scheduler.keep store.cache a
            advanceGroup seconds ids
              { store with arena := store.arena.erase id, cache := cache }
          else
            let (rest, store) ←
              advanceGroup seconds ids { store with arena := store.arena.insert id a }
            pure (id :: rest, store)

/-- Let time pass in the running group.  Empty groups in front of the chain are dropped
before and after. -/
def advance (t : ArenaScheduler α μ ι) (seconds : α) :
    Watched α μ ι (ArenaScheduler α μ ι) := do
  match t.chain.dropWhile (·.isEmpty) with
  | [] => pure ⟨[], t.store⟩
  | ids :: waiting =>
      let (left, store) ← advanceGroup seconds ids t.store
      pure ⟨(left :: waiting).dropWhile (·.isEmpty), store⟩

/-- Read the value of a channel.  A number without an animation is passed over. -/
def read (t : ArenaScheduler α μ ι) (c : Channel) (fallback : PropertyValue α) :
    Watched α μ ι (PropertyValue α × ArenaScheduler α μ ι) := do
  let running := (t.chain.headD []).filterMap (t.store.arena[·]?)
  match running.find? (·.exposes c) with
  | some a => pure (← a.reading c, t)
  | none =>
      let cache := t.store.cache
      pure ((cache.find? c).getD fallback, ⟨t.chain, { t.store with cache := cache.discard c }⟩)

/-- The part of the map plane that a viewport shows once every driven value of the
camera is applied. -/
def rect (t : ArenaScheduler α μ ι) (v : Viewport α) :
    Watched α μ ι (OrientedRect α × ArenaScheduler α μ ι) := do
  let (scale, t) ← t.read ⟨.mapPlane, .scale⟩ (.scalar v.scale)
  let (angle, t) ← t.read ⟨.mapPlane, .angle⟩ (.scalar v.angle)
  let (position, t) ← t.read ⟨.mapPlane, .position⟩ (.point v.focus)
  let area := v.pixels.centered.scale (scale.scalar?.getD v.scale)
  pure (⟨position.point?.getD v.focus, angle.scalar?.getD v.angle, area⟩, t)

/-- Keep the values of an animation that the scheduler does not have. -/
def save (t : ArenaScheduler α μ ι) (a : Animation α μ ι) :
    Watched α μ ι (ArenaScheduler α μ ι) := do
  let cache ← Scheduler.keep t.store.cache a
  pure ⟨t.chain, { t.store with cache := cache }⟩

omit [Scalar α] [Motion α μ] in
/-- Drop every animation and every kept value; nobody is told. -/
def clear (t : ArenaScheduler α μ ι) : ArenaScheduler α μ ι :=
  ⟨[], { t.store with arena := ∅, cache := .empty }⟩

/-- What one operation does. -/
def step (t : ArenaScheduler α μ ι) : Operation α μ ι → Watched α μ ι (ArenaScheduler α μ ι)
  | .add a force => Prod.snd <$> t.add a force
  | .advance seconds => t.advance seconds
  | .read c fallback => Prod.snd <$> t.read c fallback
  | .rect v => Prod.snd <$> t.rect v
  | .save a => t.save a
  | .clear => pure t.clear

/-- What several operations do, one after the other. -/
def runFrom (t : ArenaScheduler α μ ι) :
    List (Operation α μ ι) → Watched α μ ι (ArenaScheduler α μ ι)
  | [] => pure t
  | op :: ops => do
      let t ← t.step op
      t.runFrom ops

/-- A run from the beginning. -/
def run (ops : List (Operation α μ ι)) : Watched α μ ι (ArenaScheduler α μ ι) :=
  runFrom .empty ops

/-! ## Views -/

omit [Scalar α] [Motion α μ] in
/-- Whether the scheduler still has the animation with a number. -/
def isRunning (t : ArenaScheduler α μ ι) (id : Nat) : Bool :=
  t.store.arena.contains id

omit [Scalar α] [Motion α μ] in
/-- Whether an animation runs or waits. -/
def hasAnimations (t : ArenaScheduler α μ ι) : Bool :=
  !t.store.arena.isEmpty

end ArenaScheduler

end CameraMotion
