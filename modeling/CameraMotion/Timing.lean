import CameraMotion.Scalar

/-!
# Timing

The constants from which a transition derives its natural duration.  They are
tunable; every one has to be a positive number.
-/

namespace CameraMotion

/-- The constants behind natural durations. -/
@[ext]
structure Timing (α : Type) where
  /-- Seconds that any short move takes. -/
  minMoveDuration : α
  /-- A move over less than this share of the shorter side of the viewport is
  short. -/
  minSpeedScalar : α
  /-- A long move covers this many shorter sides of the viewport in a second. -/
  maxSpeedScalar : α
  /-- Seconds that a turn by an eighth of the full circle takes. -/
  quarterTurnDuration : α
  /-- The scale ratio that a zoom covers in a second. -/
  zoomSpeed : α
deriving DecidableEq, Repr

/-- The name of one constant. -/
inductive Timing.Field where
  /-- Seconds of a short move. -/
  | minMoveDuration
  /-- Share of the viewport that makes a move long. -/
  | minSpeedScalar
  /-- Speed of a long move. -/
  | maxSpeedScalar
  /-- Seconds of a turn. -/
  | quarterTurnDuration
  /-- Speed of a zoom. -/
  | zoomSpeed
deriving DecidableEq, Repr

namespace Timing

/-! ## Fields -/

namespace Field

/-- Every constant, in the order in which they are checked. -/
def all : List Field :=
  [.minMoveDuration, .minSpeedScalar, .maxSpeedScalar, .quarterTurnDuration, .zoomSpeed]

/-- The key of a constant in a configuration. -/
def key : Field → String
  | .minMoveDuration => "min_move_duration"
  | .minSpeedScalar => "min_speed_scalar"
  | .maxSpeedScalar => "max_speed_scalar"
  | .quarterTurnDuration => "quarter_turn_duration"
  | .zoomSpeed => "zoom_speed"

end Field

variable {α : Type}

/-- The value of a constant. -/
def get (t : Timing α) : Field → α
  | .minMoveDuration => t.minMoveDuration
  | .minSpeedScalar => t.minSpeedScalar
  | .maxSpeedScalar => t.maxSpeedScalar
  | .quarterTurnDuration => t.quarterTurnDuration
  | .zoomSpeed => t.zoomSpeed

/-- Give a constant another value. -/
def set (t : Timing α) (field : Field) (x : α) : Timing α :=
  match field with
  | .minMoveDuration => { t with minMoveDuration := x }
  | .minSpeedScalar => { t with minSpeedScalar := x }
  | .maxSpeedScalar => { t with maxSpeedScalar := x }
  | .quarterTurnDuration => { t with quarterTurnDuration := x }
  | .zoomSpeed => { t with zoomSpeed := x }

/-- Every constant is listed. -/
@[simp] theorem Field.mem_all (field : Field) : field ∈ Field.all := by
  cases field <;> decide

/-- Setting a constant changes that constant and no other. -/
@[simp] theorem get_set (t : Timing α) (field other : Field) (x : α) :
    (t.set field x).get other = if other = field then x else t.get other := by
  cases field <;> cases other <;> rfl

/-! ## Values -/

variable [Scalar α]

/-- The timing of a camera that nobody has tuned.  A zoom to twice the scale
takes three tenths of a second. -/
def standard : Timing α :=
  { minMoveDuration := 0.2
    minSpeedScalar := 0.2
    maxSpeedScalar := 7.0
    quarterTurnDuration := 0.5
    zoomSpeed := 2.0 / 0.3 }

/-- Whether a constant can be used: it is an ordinary number above zero. -/
def usable (x : α) : Bool :=
  Scalar.isFinite x && 0 < x

/-- The first constant that cannot be used. -/
def invalidField? (t : Timing α) : Option Field :=
  Field.all.find? fun field => !usable (t.get field)

/-- No constant is found wrong exactly when all of them can be used. -/
theorem invalidField?_eq_none_iff {t : Timing α} :
    t.invalidField? = none ↔ ∀ field, usable (t.get field) = true := by
  simp [invalidField?]

end Timing

end CameraMotion
