import CameraMotion.Callbacks
import CameraMotion.Leaf
import CameraMotion.Logged

/-!
# Events

What can be watched while animations are scheduled: which leaf was told of what,
which contract was broken, and which read found no value.

Every leaf stands in an animation together with its listener, of a type `ι` that
the library leaves open.  An event about a leaf names the listener and shows the
leaf in the state that it has at that moment.
-/

namespace CameraMotion

/-- One event. -/
inductive Event (α μ ι : Type) where
  /-- A leaf was told of a point in its life. -/
  | told (hook : Hook) (listener : ι) (body : Leaf α μ)
  /-- Time has passed in a leaf. -/
  | advanced (listener : ι) (body : Leaf α μ)
  /-- A contract was broken. -/
  | breach (violation : Violation)
  /-- A read found no value. -/
  | fault (fault : Fault)
deriving DecidableEq, Repr

namespace Event

variable {α μ ι : Type}

/-- The broken contract, if the event is one. -/
def violation? : Event α μ ι → Option Violation
  | .breach v => some v
  | _ => none

/-- The broken contracts of a log, in order. -/
def violations (log : List (Event α μ ι)) : List Violation :=
  log.filterMap violation?

end Event

/-- A result together with the events on the way to it. -/
abbrev Watched (α μ ι : Type) (β : Type) :=
  Logged (Event α μ ι) β

/-- Log the broken contracts of a call. -/
def Watched.breaches {α μ ι : Type} (violations : List Violation) : Watched α μ ι Unit :=
  Logged.emit (violations.map .breach)

/-- Nothing is logged but the broken contracts. -/
@[simp] theorem Watched.log_breaches {α μ ι : Type} (violations : List Violation) :
    (Watched.breaches violations : Watched α μ ι Unit).log = violations.map .breach :=
  rfl

/-- A computation that ends at the first broken contract: what happened before, and then
its result, or else the contract that was broken. -/
def Logged.guarded {α μ ι β : Type} (m : Logged (Event α μ ι) β) :
    ExceptT Violation (Logged (Event α μ ι)) β :=
  match Event.violations m.log with
  | [] => .mk ⟨.ok m.value, m.log⟩
  | v :: _ => .mk ⟨.error v, m.log.takeWhile (·.violation?.isNone)⟩

end CameraMotion
