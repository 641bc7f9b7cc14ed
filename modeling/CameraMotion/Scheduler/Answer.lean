import CameraMotion.Scheduler.Run

/-!
# Answers

What a caller gets to see of a scheduler: one answer for each request.  A guarded
scheduler gives up at the first broken contract and answers no more.
-/

namespace CameraMotion

variable {α μ ι : Type}

/-- What can be asked of a scheduler. -/
inductive Request (α μ ι : Type) where
  | operation (op : Operation α μ ι)
  /-- Whether a running animation touches an object or a value is kept for it. -/
  | animates (o : Object)

/-- The answer to a request. -/
inductive Answer (α : Type) where
  | done
  /-- The number of the animation that was inserted. -/
  | number (id : Nat)
  | value (v : PropertyValue α)
  | area (r : OrientedRect α)
  | animated (b : Bool)
deriving DecidableEq, Repr

namespace Scheduler

variable [Scalar α] [Motion α μ]

/-- Answer a request. -/
def answer (s : Scheduler α μ ι) :
    Request α μ ι → Watched α μ ι (Answer α × Scheduler α μ ι)
  | .operation (.add a force) => (.number s.nextId, ·) <$> s.add a force
  | .operation (.advance seconds) => (.done, ·) <$> s.advance seconds
  | .operation (.read c fallback) => Prod.map .value id <$> s.read c fallback
  | .operation (.rect v) => Prod.map .area id <$> s.rect v
  | .operation (.save a) => (.done, ·) <$> s.save a
  | .operation .clear => pure (.done, s.clear)
  | .animates o => pure (.animated (s.animates o), s)

/-- Answer several requests, one after the other. -/
def answers (s : Scheduler α μ ι) :
    List (Request α μ ι) → Watched α μ ι (List (Answer α) × Scheduler α μ ι)
  | [] => pure ([], s)
  | r :: rs => do
      let (x, s) ← s.answer r
      let (xs, s) ← s.answers rs
      pure (x :: xs, s)

/-- Answer several requests, one after the other, up to the first one that breaks a
contract. -/
def guardedAnswers (s : Scheduler α μ ι) : List (Request α μ ι) →
    ExceptT Violation (Logged (Event α μ ι)) (List (Answer α) × Scheduler α μ ι)
  | [] => pure ([], s)
  | r :: rs => do
      let (x, s) ← (s.answer r).guarded
      let (xs, s) ← s.guardedAnswers rs
      pure (x :: xs, s)

end Scheduler

end CameraMotion
