import CameraMotion.Animation.Play
import CameraMotion.Proofs.Moments

/-!
# One step of an animation

What is left of an animation once time has passed in it, and what its leaves
notice, constructor by constructor.

Main results:

- Theorem `Animation.value_advance_parallel`: of a parallel the members stay that
  are not over, in order.
- Theorem `Animation.value_advance_sequence_cons_cons`: a sequence with a stage to
  come goes over to it exactly when the running stage is over.
- Theorem `Animation.moments_advance_parallel`: the members of a parallel have their
  turns one after the other.
-/

namespace CameraMotion.Animation

variable {α μ ι : Type} [Scalar α] [Motion α μ]

/-- The members that are not over once time has passed, in order. -/
def stayers (seconds : α) (ms : List (Animation α μ ι)) : List (Animation α μ ι) :=
  (ms.map (·.advanced seconds)).filter (!·.finished)

/-- Who stays is one of the members after its step, and not over. -/
theorem mem_stayers {seconds : α} {ms : List (Animation α μ ι)} {m : Animation α μ ι} :
    m ∈ stayers seconds ms ↔ (∃ m₀ ∈ ms, m₀.advanced seconds = m) ∧ m.finished = false := by
  simp [stayers]

/-! ## What is left -/

/-- Of a leaf the leaf is left, after its step. -/
@[simp]
theorem advanced_leaf (seconds : α) (listener : ι) (body : Leaf α μ) :
    (Animation.leaf listener body).advanced seconds = .leaf listener (body.advance seconds) := by
  simp [advanced, advance]

/-- To let time pass in several members leaves those who stay. -/
theorem value_advanceMembers (seconds : α) (ms : List (Animation α μ ι)) :
    (advanceMembers seconds ms).value = stayers seconds ms := by
  induction ms with
  | nil => simp [advanceMembers, stayers]
  | cons m ms ih =>
      cases ended : (m.advance seconds).value.finished <;>
        simp [advanceMembers, stayers, advanced, ended, ih]

/-- Of a parallel the members stay that are not over, in order. -/
@[simp]
theorem advanced_parallel (seconds : α) (declared : Declarations)
    (members : List (Animation α μ ι)) :
    (Animation.parallel declared members).advanced seconds =
      .parallel declared (stayers seconds members) := by
  simp [advanced, advance, value_advanceMembers]

/-- A sequence without stages stays as it is. -/
@[simp]
theorem advanced_sequence_nil (seconds : α) :
    (Animation.sequence [] : Animation α μ ι).advanced seconds = .sequence [] := by
  simp [advanced, advance, advanceStages]

/-- A sequence keeps its last stage, whether that is over or not. -/
@[simp]
theorem advanced_sequence_single (seconds : α) (last : Animation α μ ι) :
    (Animation.sequence [last]).advanced seconds = .sequence [last.advanced seconds] := by
  simp [advanced, advance, advanceStages]

/-- A sequence with a stage to come goes over to it exactly when the running stage
is over. -/
@[simp]
theorem advanced_sequence_cons_cons (seconds : α) (head next : Animation α μ ι)
    (later : List (Animation α μ ι)) :
    (Animation.sequence (head :: next :: later)).advanced seconds =
      if (head.advanced seconds).finished then .sequence (next :: later)
      else .sequence (head.advanced seconds :: next :: later) := by
  cases ended : (head.advance seconds).value.finished <;>
    simp [advanced, advance, advanceStages, ended]

/-! ## What is noticed -/

/-- A leaf notices the time that passes in it. -/
@[simp]
theorem moments_advance_leaf (seconds : α) (listener : ι) (body : Leaf α μ) :
    ((Animation.leaf listener body).advance seconds).moments = [(listener, .advanced)] := by
  simp [advance, Event.moment?]

/-- What is noticed in the turn of an animation that is part of others: time passes in
it, and if it is over then, it is told of its finish. -/
def turn (seconds : α) (a : Animation α μ ι) : List (ι × Moment) :=
  (a.advance seconds).moments ++
    if (a.advanced seconds).finished then ((a.advanced seconds).tell .finish).moments else []

/-- Several members have their turns one after the other. -/
theorem moments_advanceMembers (seconds : α) (ms : List (Animation α μ ι)) :
    (advanceMembers seconds ms).moments = ms.flatMap (·.turn seconds) := by
  induction ms with
  | nil => simp [advanceMembers]
  | cons m ms ih =>
      cases ended : (m.advance seconds).value.finished <;>
        simp [advanceMembers, turn, advanced, ended, ih]

/-- The members of a parallel have their turns one after the other. -/
@[simp]
theorem moments_advance_parallel (seconds : α) (declared : Declarations)
    (members : List (Animation α μ ι)) :
    ((Animation.parallel declared members).advance seconds).moments =
      members.flatMap (·.turn seconds) := by
  simp [advance, moments_advanceMembers]

/-- In a sequence without stages nobody notices anything. -/
@[simp]
theorem moments_advance_sequence_nil (seconds : α) :
    ((Animation.sequence [] : Animation α μ ι).advance seconds).moments = [] := by
  simp [advance, advanceStages]

/-- What is noticed in a sequence on its last stage is what is noticed in that stage. -/
@[simp]
theorem moments_advance_sequence_single (seconds : α) (last : Animation α μ ι) :
    ((Animation.sequence [last]).advance seconds).moments =
      (last.advance seconds).moments := by
  simp [advance, advanceStages]

/-- A stage with another one to come has its turn; if it is over then, the next one is
told of its start. -/
@[simp]
theorem moments_advance_sequence_cons_cons (seconds : α) (head next : Animation α μ ι)
    (later : List (Animation α μ ι)) :
    ((Animation.sequence (head :: next :: later)).advance seconds).moments =
      head.turn seconds ++
        if (head.advanced seconds).finished then (next.tell .start).moments else [] := by
  cases ended : (head.advance seconds).value.finished <;>
    simp [advance, advanceStages, turn, advanced, ended]

/-! ## What is logged -/

/-- What is logged in the turn of an animation that is part of others: time passes in it,
and if it is over then, it is told of its finish. -/
def partLog (seconds : α) (a : Animation α μ ι) : List (Event α μ ι) :=
  (a.advance seconds).log ++
    if (a.advanced seconds).finished then ((a.advanced seconds).tell .finish).log else []

/-- What is logged in a parallel is logged member by member. -/
theorem log_advance_parallel (seconds : α) (declared : Declarations)
    (members : List (Animation α μ ι)) :
    ((Animation.parallel declared members).advance seconds).log =
      members.flatMap (·.partLog seconds) := by
  have each : ∀ ms : List (Animation α μ ι),
      (advanceMembers seconds ms).log = ms.flatMap (·.partLog seconds) := by
    intro ms
    induction ms with
    | nil => simp [advanceMembers]
    | cons m ms ih =>
        cases ended : (m.advance seconds).value.finished <;>
          simp [advanceMembers, partLog, advanced, ended, ih]
  simp [advance, each]

/-- What is logged in a sequence on its last stage is what is logged in that stage. -/
theorem log_advance_sequence_single (seconds : α) (last : Animation α μ ι) :
    ((Animation.sequence [last]).advance seconds).log = (last.advance seconds).log := by
  simp [advance, advanceStages]

/-- What is logged in a sequence with a stage to come is what is logged in the turn of its
running stage and, if that is over, at the start of the next one. -/
theorem log_advance_sequence_cons_cons (seconds : α) (head next : Animation α μ ι)
    (later : List (Animation α μ ι)) :
    ((Animation.sequence (head :: next :: later)).advance seconds).log =
      head.partLog seconds ++
        if (head.advanced seconds).finished then (next.tell .start).log else [] := by
  cases ended : (head.advance seconds).value.finished <;>
    simp [advance, advanceStages, partLog, advanced, ended]

/-- A start and an interruption are told to the running leaves, and so is the finish of an
animation that is over. -/
theorem mem_log_tell {a : Animation α μ ι} {hook : Hook}
    (ended : hook = .finish → a.finished = true) {e : Event α μ ι} :
    e ∈ (a.tell hook).log ↔ ∃ l ∈ a.running, .told hook l.1 l.2 = e := by
  rw [tell, Logged.log_emit, hookEvents_eq hook a ended, List.mem_map]

end CameraMotion.Animation
