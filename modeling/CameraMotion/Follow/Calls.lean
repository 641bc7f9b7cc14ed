import CameraMotion.Follow

/-!
# Calls on a follow

A follow is asked for one part after another, and may be capped on the way.  A part that
leads nowhere it does not keep, and it does not note what the part would have driven.

Main results:

- Theorems `Follow.driven_call` and `Follow.driven_fill`: what a follow has noted down are
  the properties of the parts that it was asked for and that lead somewhere.
-/

namespace CameraMotion.Follow

/-! ## Parts -/

/-- A part that a follow is asked for. -/
inductive Part (α : Type) where
  /-- A move between two points. -/
  | move (start stop : Point α) (view : Viewport α)
  /-- A turn between two angles. -/
  | turn (start stop : α)
  /-- A zoom between two scale factors. -/
  | zoom (start stop : α)

namespace Part

variable {α : Type}

/-- What the part drives. -/
def property : Part α → Property
  | move _ _ _ => .position
  | turn _ _ => .angle
  | zoom _ _ => .scale

/-- Where the part starts. -/
def start : Part α → PropertyValue α
  | move start _ _ => .point start
  | turn start _ => .scalar start
  | zoom start _ => .scalar start

/-- Where the part ends. -/
def stop : Part α → PropertyValue α
  | move _ stop _ => .point stop
  | turn _ stop => .scalar stop
  | zoom _ stop => .scalar stop

/-- The part leads nowhere. -/
def idle [Scalar α] : Part α → Bool
  | move start stop _ => start == stop
  | turn start stop => start == stop
  | zoom start stop => start == stop

end Part

/-! ## Calls -/

/-- What can be asked of a follow before time passes in it. -/
inductive Call (α : Type) where
  /-- Another part. -/
  | set (part : Part α)
  /-- An earlier end of the parts that it has. -/
  | cap (limit : α)

/-- The step that a call is for the parts that are there. -/
def Call.step? {α : Type} : Call α → Option (Clock.Step α)
  | set _ => none
  | cap limit => some (.cap limit)

section

variable {α : Type} [PlaneScalar α]

/-- Ask for a part. -/
def withPart (f : Follow α) : Part α → Follow α
  | .move start stop view => f.withMove start stop view
  | .turn start stop => f.withTurn start stop
  | .zoom start stop => f.withZoom start stop

/-- Make a call. -/
def call (f : Follow α) : Call α → Follow α
  | .set part => f.withPart part
  | .cap limit => f.cap limit

/-- The follow that is made by several calls. -/
def fill (timing : Timing α) (calls : List (Call α)) : Follow α :=
  calls.foldl call (.empty timing)

/-- A call more is made on the follow that the earlier calls have made. -/
theorem fill_concat (timing : Timing α) (calls : List (Call α)) (c : Call α) :
    fill timing (calls ++ [c]) = (fill timing calls).call c :=
  List.foldl_append

/-- A follow with a move, a turn and a zoom. -/
def between (timing : Timing α) (start stop : Point α) (angle angle' scale scale' : α)
    (view : Viewport α) : Follow α :=
  (((empty timing).withMove start stop view).withTurn angle angle').withZoom scale scale'

/-- A follow between two views is one that is asked for a move, a turn and a zoom. -/
theorem between_eq_fill (timing : Timing α) (start stop : Point α) (angle angle' scale scale' : α)
    (view : Viewport α) :
    between timing start stop angle angle' scale scale' view =
      fill timing [.set (.move start stop view), .set (.turn angle angle'),
        .set (.zoom scale scale')] :=
  rfl

/-- Note down what a call drives. -/
def record (s : PropertySet) : Call α → PropertySet
  | .set part => if part.idle then s else s.insert part.property
  | .cap _ => s

/-- Keep a part, and note down what it drives. -/
def put (f : Follow α) : Part α → Follow α
  | .move start stop view => f.putMove (.move f.timing 0 start stop view)
  | .turn start stop => f.putTurn (.turn f.timing 0 start stop)
  | .zoom start stop => f.putZoom (.zoom f.timing 0 start stop)

/-- A part that leads nowhere changes nothing. -/
theorem withPart_of_idle (f : Follow α) {part : Part α} (idle : part.idle = true) :
    f.withPart part = f := by
  cases part <;> exact if_pos idle

/-- A part that leads somewhere is put in. -/
theorem withPart_of_moves (f : Follow α) {part : Part α} (moves : ¬part.idle = true) :
    f.withPart part = f.put part := by
  cases part <;> exact if_neg moves

/-- A part that leads somewhere is kept. -/
theorem driven_withPart (f : Follow α) {part : Part α} (moves : ¬part.idle = true) :
    (f.withPart part).driven = f.driven.insert part.property := by
  rw [withPart_of_moves f moves]
  cases part <;> rfl

/-- A call notes down what it drives, and forgets nothing. -/
theorem driven_call (f : Follow α) (c : Call α) : (f.call c).driven = record f.driven c := by
  cases c with
  | cap limit => rfl
  | set part =>
      by_cases idle : part.idle = true
      · rw [call, record, if_pos idle, withPart_of_idle f idle]
      · rw [call, record, if_neg idle, driven_withPart f idle]

/-- The properties of the parts that lead somewhere are those that are driven. -/
theorem driven_fill (timing : Timing α) (calls : List (Call α)) :
    (fill timing calls).driven = calls.foldl record .empty :=
  (List.foldl_hom driven fun f c => (driven_call f c).symm).symm

end

end CameraMotion.Follow
