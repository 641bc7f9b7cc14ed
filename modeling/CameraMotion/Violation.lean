import CameraMotion.Channel

/-!
# Broken contracts

What a caller can do that an operation does not allow, and what an operation
reports when it has no value to give.  A broken contract never stops an
operation: it goes on with the value its definition says, and the break is
listed for those who watch for it.
-/

namespace CameraMotion

/-- A broken contract. -/
inductive Violation where
  /-- A viewport needs a positive scale. -/
  | viewportScale
  /-- A clock needs a duration that is not negative. -/
  | clockDuration
  /-- A clock needs a delay that is not negative. -/
  | clockDelay
  /-- Time does not run backwards. -/
  | elapsedSeconds
  /-- The ratio of two scale factors needs both positive. -/
  | scaleFactors
  /-- Properties are asked only of an object that is touched. -/
  | untouchedObject
  /-- A follow is asked only about the map plane. -/
  | followObject (o : Object)
  /-- A follow is read only where it drives. -/
  | followProperty (p : Property)
  /-- A parallel is read only where a running member drives. -/
  | parallelChannel (c : Channel)
  /-- An empty sequence is not read. -/
  | emptySequence
deriving DecidableEq, Repr

/-- The text of a broken contract. -/
def Violation.message : Violation → String
  | .viewportScale => "screen scale must be positive"
  | .clockDuration => "interpolator duration must not be negative"
  | .clockDelay => "interpolator delay must not be negative"
  | .elapsedSeconds => "assertion failed: elapsed_seconds >= 0.0"
  | .scaleFactors => "scale factors must be positive"
  | .untouchedObject => "assertion failed: self.has_object(object)"
  | .followObject o =>
      "assertion `left == right` failed\n  left: " ++ o.name ++ "\n right: " ++ Object.mapPlane.name
  | .followProperty p => "follow animation does not drive " ++ p.name
  | .parallelChannel c => "parallel animation has no running member driving " ++ c.name
  | .emptySequence => "empty sequence has no properties"

/-- The contract `condition`, as the list of what is broken. -/
def Violation.unless (condition : Bool) (v : Violation) : List Violation :=
  if condition then [] else [v]

/-- A contract that holds is not broken. -/
@[simp] theorem Violation.unless_eq_nil {condition : Bool} {v : Violation} :
    Violation.unless condition v = [] ↔ condition = true := by
  cases condition <;> simp [Violation.unless]

/-- A read that found no value. -/
inductive Fault where
  /-- A follow does not drive the property. -/
  | followProperty (p : Property)
  /-- No running member of a parallel drives the channel. -/
  | parallelChannel (c : Channel)
  /-- A sequence without stages drives nothing. -/
  | emptySequence (c : Channel)
deriving DecidableEq, Repr

/-- The text of a failed read. -/
def Fault.message : Fault → String
  | .followProperty p => "Follow animation does not drive " ++ p.name
  | .parallelChannel c => "Parallel animation has no running member driving " ++ c.name
  | .emptySequence c => "Empty sequence has no property " ++ c.name

end CameraMotion
