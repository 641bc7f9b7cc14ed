import CameraMotion.Proofs.Alone

/-!
# Members side by side

A parallel runs its members side by side, and each of them runs as it does by itself.
Members leave in the middle of a step, while the others have their turns, and nobody is
passed over or asked twice because of that: a member is there for exactly as long as it
goes on by itself.

Main results:

- Theorem `Animation.elapsed_parallel`: the members that are left are those that outlast
  the steps, each in the state that it has by itself.
- Theorem `Animation.log_advance_elapsed_parallel`: in a step the members that are left
  have their turns one after the other, in order.
- Theorem `Animation.sideBySide`: all of that together, and what is logged for each member.
-/

namespace CameraMotion.Animation

variable {α μ ι : Type} [Scalar α] [Motion α μ] {block steps : List α}

/-! ## What is left of a parallel -/

/-- Those who outlast a step and then the others are those who stay after the step and
outlast the others. -/
private theorem filter_outlasts_stayers (x : α) (steps : List α) (ms : List (Animation α μ ι)) :
    ((stayers x ms).filter (·.outlasts steps)).map (·.elapsed steps) =
      (ms.filter (·.outlasts (x :: steps))).map (·.elapsed (x :: steps)) := by
  simp [stayers, List.filter_map, List.filter_filter, Function.comp_def, Bool.and_comm]

/-- The members that are left are those that outlast the steps, in order, each in the
state that it has by itself. -/
theorem elapsed_parallel (declared : Declarations) (members : List (Animation α μ ι))
    (steps : List α) :
    (Animation.parallel declared members).elapsed steps =
      .parallel declared ((members.filter (·.outlasts steps)).map (·.elapsed steps)) := by
  induction steps generalizing members with
  | nil => simp
  | cons x steps ih => rw [elapsed_cons, advanced_parallel, ih, filter_outlasts_stayers]

/-! ## What is logged -/

/-- What is logged for a member in the step that comes after some others: while it goes on
it has its turn, and once it is over nothing is logged for it any more. -/
def stepLog (before : List α) (x : α) (m : Animation α μ ι) : List (Event α μ ι) :=
  if m.outlasts before then (m.elapsed before).partLog x else []

/-- What is logged for a member in the course of some steps. -/
def courseLog : List α → Animation α μ ι → List (Event α μ ι)
  | [], _ => []
  | x :: steps, m =>
      m.partLog x ++ if (m.advanced x).finished then [] else (m.advanced x).courseLog steps

/-- In a step the members have their turns one after the other. -/
theorem log_advance_elapsed_parallel (declared : Declarations)
    (members : List (Animation α μ ι)) (before : List α) (x : α) :
    (((Animation.parallel declared members).elapsed before).advance x).log =
      members.flatMap (·.stepLog before x) := by
  rw [elapsed_parallel, log_advance_parallel, List.flatMap_map]
  induction members with
  | nil => rfl
  | cons m ms ih => cases goes : m.outlasts before <;> simp [stepLog, goes, ih]

/-- A step more is logged last, if the member is still there. -/
theorem courseLog_concat (before : List α) (x : α) (m : Animation α μ ι) :
    m.courseLog (before ++ [x]) = m.courseLog before ++ m.stepLog before x := by
  induction before generalizing m with
  | nil => simp [courseLog, stepLog]
  | cons y steps ih =>
      cases ended : (m.advanced y).finished <;> simp [courseLog, stepLog, ended, ih]

/-- For a member that goes on everything is logged that is logged when it runs by itself,
and nothing else. -/
theorem courseLog_of_outlasts {m : Animation α μ ι} (goes : m.outlasts steps = true) :
    m.courseLog steps = (m.elapse steps).log := by
  induction steps generalizing m with
  | nil => rfl
  | cons x steps ih =>
      rw [outlasts_cons, Bool.and_eq_true, Bool.not_eq_true'] at goes
      rcases goes with ⟨stays, rest⟩
      simp [courseLog, partLog, log_elapse_cons, stays, ih rest]

/-- For a member that is over, everything is logged that is logged when it runs by itself
for as long as it lasts, and then that it is told of its finish. -/
theorem courseLog_of_lasts {m : Animation α μ ι} (h : m.Lasts block) (after : List α) :
    m.courseLog (block ++ after) =
      (m.elapse block).log ++ ((m.elapsed block).tell .finish).log := by
  induction h with
  | ends ended => simp [courseLog, partLog, log_elapse_cons, log_elapse_nil, ended]
  | goes stays _ ih => simp [courseLog, partLog, log_elapse_cons, stays, ih]

/-! ## Side by side -/

/-- How the members of a parallel run for some steps. -/
structure SideBySide (declared : Declarations) (members : List (Animation α μ ι))
    (steps : List α) : Prop where
  /-- The members that are left are those that outlast the steps, in order, each in the
  state that it has by itself. -/
  left : ((Animation.parallel declared members).elapse steps).value =
    .parallel declared ((members.filter (·.outlasts steps)).map (·.elapsed steps))
  /-- A member outlasts the steps when by itself it goes on after each of them. -/
  outlasts : ∀ m ∈ members, m.outlasts steps = true ↔
    ∀ fewer, fewer ≠ [] → fewer <+: steps → (m.elapsed fewer).finished = false
  /-- The parallel is over when no member is left. -/
  ended : ((Animation.parallel declared members).elapsed steps).finished = true ↔
    ∀ m ∈ members, m.outlasts steps = false
  /-- In each step the members have their turns one after the other, in order.  In its turn
  a member is advanced, and if it is over then, it is told of its finish at once. -/
  rounds : ∀ before x, before ++ [x] <+: steps →
    ((Animation.parallel declared members).elapse (before ++ [x])).log =
      ((Animation.parallel declared members).elapse before).log ++
        members.flatMap (·.stepLog before x)
  /-- All the turns of a member make up its course. -/
  courses : ∀ m ∈ members, ∀ before x, before ++ [x] <+: steps →
    m.courseLog (before ++ [x]) = m.courseLog before ++ m.stepLog before x
  /-- The course of a member that is left is that of the member by itself. -/
  stays : ∀ m ∈ members, m.outlasts steps = true → m.courseLog steps = (m.elapse steps).log
  /-- The course of a member that is gone is that of the member by itself until it is over
  for the first time, and ends with its finish. -/
  leaves : ∀ m ∈ members, m.outlasts steps = false →
    ∃! block, block <+: steps ∧ m.Lasts block ∧
      m.courseLog steps = (m.elapse block).log ++ ((m.elapsed block).tell .finish).log

/-- The members of a parallel run side by side, and each of them runs as it does by
itself. -/
theorem sideBySide (declared : Declarations) (members : List (Animation α μ ι))
    (steps : List α) : SideBySide declared members steps where
  left := by rw [value_elapse, elapsed_parallel]
  outlasts _ _ := outlasts_iff
  ended := by simp [elapsed_parallel]
  rounds before x _ := by rw [log_elapse_concat, log_advance_elapsed_parallel]
  courses m _ before x _ := courseLog_concat before x m
  stays _ _ goes := courseLog_of_outlasts goes
  leaves m _ gone := by
    rcases exists_lasts gone with ⟨block, after, rfl, lasts⟩
    refine ⟨block, ⟨⟨after, rfl⟩, lasts, courseLog_of_lasts lasts after⟩, ?_⟩
    rintro other ⟨⟨later, same⟩, lasts', _⟩
    exact lasts'.unique lasts same

end CameraMotion.Animation
