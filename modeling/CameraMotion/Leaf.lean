import CameraMotion.Follow
import CameraMotion.Motion

/-!
# Leaves

A leaf is an animation that is not made of others: a follow or a motion.
-/

namespace CameraMotion

/-- An animation that is not made of others. -/
inductive Leaf (α μ : Type) where
  /-- A motion. -/
  | motion (m : μ)
  /-- A camera transition. -/
  | follow (f : Follow α)
deriving DecidableEq, Repr

namespace Leaf

variable {α μ : Type} [Motion α μ]

/-! ## Declarations -/

/-- What the leaf touches and drives. -/
def declarations : Leaf α μ → Declarations
  | .motion m => Motion.declarations m
  | .follow f => f.declarations

/-- Whether the leaf may share its objects.  A follow wants the camera for
itself. -/
def mixable : Leaf α μ → Bool
  | .motion m => Motion.mixable m
  | .follow _ => false

/-- Whether the leaf may be removed before its end. -/
def interruptible : Leaf α μ → Bool
  | .motion m => Motion.interruptible m
  | .follow _ => true

/-! ## Running -/

variable [Scalar α]

/-- Let time pass. -/
def advance : Leaf α μ → α → Leaf α μ
  | .motion m, seconds => .motion (Motion.advance m seconds)
  | .follow f, seconds => .follow (f.advance seconds)

/-- What letting time pass asks of its caller. -/
def advanceBreaches : Leaf α μ → α → List Violation
  | .motion _, _ => []
  | .follow f, seconds => f.advanceBreaches seconds

/-- Whether the leaf has run to its end. -/
def finished : Leaf α μ → Bool
  | .motion m => Motion.finished m
  | .follow f => f.finished

/-- Seconds that the leaf takes. -/
def duration : Leaf α μ → α
  | .motion m => Motion.duration m
  | .follow f => f.duration

/-- Bring the end forward. -/
def cap : Leaf α μ → α → Leaf α μ
  | .motion m, limit => .motion (Motion.cap m limit)
  | .follow f, limit => .follow (f.cap limit)

end Leaf

end CameraMotion
