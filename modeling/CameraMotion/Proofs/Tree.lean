import CameraMotion.Animation.Run
import Mathlib.Data.List.Perm.Basic

/-!
# Animations as trees

The induction principle for animations, and which leaves of an animation run now
and which ones still wait.  Every member of a parallel runs; of a sequence only
the first stage does, and the leaves of its later stages wait.

Main results:

- Theorem `Animation.treeInduction`: what holds of leaves, and of a parallel or a
  sequence as soon as it holds of its parts, holds of every animation.
- Theorem `Animation.leaves_perm`: every leaf either runs or waits.
- Theorem `Animation.hookEvents_eq`: a start and an interruption reach the running
  leaves, and so does the finish of an animation that is over.
- Theorem `Animation.waiting_of_finished`: nobody waits in an animation that is
  over.
-/

namespace CameraMotion.Animation

variable {α μ ι : Type}

/-! ## Induction over the tree -/

/-- What holds of leaves, and of a parallel or a sequence as soon as it holds of
its parts, holds of every animation. -/
@[elab_as_elim, induction_eliminator]
theorem treeInduction {motive : Animation α μ ι → Prop}
    (leaf : ∀ listener body, motive (.leaf listener body))
    (parallel : ∀ declared members, (∀ m ∈ members, motive m) →
      motive (.parallel declared members))
    (sequence : ∀ stages, (∀ m ∈ stages, motive m) → motive (.sequence stages)) :
    (a : Animation α μ ι) → motive a
  | .leaf listener body => leaf listener body
  | .parallel declared members =>
      parallel declared members fun m _ => treeInduction leaf parallel sequence m
  | .sequence stages =>
      sequence stages fun m _ => treeInduction leaf parallel sequence m

/-! ## Leaves -/

mutual

/-- The leaves with their listeners, in order. -/
def leaves : Animation α μ ι → List (ι × Leaf α μ)
  | .leaf listener body => [(listener, body)]
  | .parallel _ members => leavesAll members
  | .sequence stages => leavesAll stages

def leavesAll : List (Animation α μ ι) → List (ι × Leaf α μ)
  | [] => []
  | m :: ms => m.leaves ++ leavesAll ms

end

/-- The leaves of several animations are those of each of them. -/
theorem leavesAll_eq (ms : List (Animation α μ ι)) :
    leavesAll ms = ms.flatMap leaves := by
  induction ms with
  | nil => rfl
  | cons m ms ih => simp [leavesAll, ih]

mutual

/-- The leaves that run now. -/
def running : Animation α μ ι → List (ι × Leaf α μ)
  | .leaf listener body => [(listener, body)]
  | .parallel _ members => runningAll members
  | .sequence [] => []
  | .sequence (head :: _) => head.running

def runningAll : List (Animation α μ ι) → List (ι × Leaf α μ)
  | [] => []
  | m :: ms => m.running ++ runningAll ms

end

/-- The running leaves of several animations are those of each of them. -/
theorem runningAll_eq (ms : List (Animation α μ ι)) :
    runningAll ms = ms.flatMap running := by
  induction ms with
  | nil => rfl
  | cons m ms ih => simp [runningAll, ih]

mutual

/-- The leaves that sit in a stage of a sequence that has not been reached. -/
def waiting : Animation α μ ι → List (ι × Leaf α μ)
  | .leaf _ _ => []
  | .parallel _ members => waitingAll members
  | .sequence [] => []
  | .sequence (head :: rest) => head.waiting ++ leavesAll rest

/-- The leaves of several animations that sit in a stage that has not been
reached. -/
def waitingAll : List (Animation α μ ι) → List (ι × Leaf α μ)
  | [] => []
  | m :: ms => m.waiting ++ waitingAll ms

end

/-- The waiting leaves of several animations are those of each of them. -/
theorem waitingAll_eq (ms : List (Animation α μ ι)) :
    waitingAll ms = ms.flatMap waiting := by
  induction ms with
  | nil => rfl
  | cons m ms ih => simp [waitingAll, ih]

/-- A leaf has itself as its only leaf. -/
@[simp]
theorem leaves_leaf (listener : ι) (body : Leaf α μ) :
    (Animation.leaf listener body).leaves = [(listener, body)] := by
  rw [leaves]

/-- The leaves of a parallel are those of its members. -/
@[simp]
theorem leaves_parallel (declared : Declarations) (members : List (Animation α μ ι)) :
    (Animation.parallel declared members).leaves = members.flatMap leaves := by
  rw [leaves, leavesAll_eq]

/-- The leaves of a sequence are those of its stages. -/
@[simp]
theorem leaves_sequence (stages : List (Animation α μ ι)) :
    (Animation.sequence stages).leaves = stages.flatMap leaves := by
  rw [leaves, leavesAll_eq]

/-- A leaf runs. -/
@[simp]
theorem running_leaf (listener : ι) (body : Leaf α μ) :
    (Animation.leaf listener body).running = [(listener, body)] := by
  rw [running]

/-- In a parallel all members run. -/
@[simp]
theorem running_parallel (declared : Declarations) (members : List (Animation α μ ι)) :
    (Animation.parallel declared members).running = members.flatMap running := by
  rw [running, runningAll_eq]

/-- In a sequence without stages nobody runs. -/
@[simp]
theorem running_sequence_nil : (Animation.sequence [] : Animation α μ ι).running = [] := by
  rw [running]

/-- In a sequence the first stage runs. -/
@[simp]
theorem running_sequence_cons (head : Animation α μ ι) (rest : List (Animation α μ ι)) :
    (Animation.sequence (head :: rest)).running = head.running := by
  rw [running]

/-- In a leaf nobody waits. -/
@[simp]
theorem waiting_leaf (listener : ι) (body : Leaf α μ) :
    (Animation.leaf listener body).waiting = [] := by
  rw [waiting]

/-- In a parallel those wait who wait in its members. -/
@[simp]
theorem waiting_parallel (declared : Declarations) (members : List (Animation α μ ι)) :
    (Animation.parallel declared members).waiting = members.flatMap waiting := by
  rw [waiting, waitingAll_eq]

/-- In a sequence without stages nobody waits. -/
@[simp]
theorem waiting_sequence_nil : (Animation.sequence [] : Animation α μ ι).waiting = [] := by
  rw [waiting]

/-- In a sequence those wait who wait in its running stage, and all leaves of the others. -/
@[simp]
theorem waiting_sequence_cons (head : Animation α μ ι) (rest : List (Animation α μ ι)) :
    (Animation.sequence (head :: rest)).waiting = head.waiting ++ rest.flatMap leaves := by
  rw [waiting, leavesAll_eq]

/-- Every leaf either runs or waits. -/
theorem leaves_perm (a : Animation α μ ι) : a.leaves.Perm (a.running ++ a.waiting) := by
  induction a with
  | leaf listener body => simp
  | parallel declared members ih =>
      simp only [leaves_parallel, running_parallel, waiting_parallel]
      exact (List.Perm.flatMap_left members ih).trans
        (List.flatMap_append_perm members running waiting).symm
  | sequence stages ih =>
      cases stages with
      | nil => simp
      | cons head rest =>
          simp only [leaves_sequence, List.flatMap_cons, running_sequence_cons,
            waiting_sequence_cons, ← List.append_assoc]
          exact (ih head (by simp)).append_right _

/-! ## The end of an animation -/

variable [Scalar α] [Motion α μ]

/-- A parallel is over when no member is left. -/
@[simp]
theorem finished_parallel (declared : Declarations) (members : List (Animation α μ ι)) :
    (Animation.parallel declared members).finished = members.isEmpty := by
  rw [finished]

/-- A sequence on its last stage is over when that stage is. -/
@[simp]
theorem finished_sequence_single (last : Animation α μ ι) :
    (Animation.sequence [last]).finished = last.finished := by
  rw [finished]

/-- A sequence with a stage to come is not over. -/
@[simp]
theorem finished_sequence_cons_cons (head next : Animation α μ ι)
    (later : List (Animation α μ ι)) :
    (Animation.sequence (head :: next :: later)).finished = false := by
  rw [finished] <;> simp

/-- Nobody waits in an animation that is over. -/
theorem waiting_of_finished (a : Animation α μ ι) (ended : a.finished = true) :
    a.waiting = [] := by
  induction a with
  | leaf listener body => simp
  | parallel declared members ih =>
      have none : members = [] := by simpa using ended
      simp [none]
  | sequence stages ih =>
      cases stages with
      | nil => simp
      | cons head rest =>
          cases rest with
          | nil =>
              have ended' : head.finished = true := by simpa using ended
              have idle : head.waiting = [] := ih head (by simp) ended'
              simp [idle]
          | cons next later => simp at ended

/-- A start and an interruption reach the running leaves, and so does the finish
of an animation that is over. -/
theorem hookEvents_eq (hook : Hook) (a : Animation α μ ι)
    (ended : hook = .finish → a.finished = true) :
    a.hookEvents hook = a.running.map fun l => .told hook l.1 l.2 := by
  induction a with
  | leaf listener body => simp [hookEvents]
  | parallel declared members ih =>
      cases hook with
      | finish =>
          have none : members = [] := by simpa using ended rfl
          simp [hookEvents, none]
      | start | interrupt =>
          simp only [hookEvents, hookEventsAll_eq, running_parallel, List.map_flatMap]
          exact List.flatMap_congr fun m hm => ih m hm (by simp)
  | sequence stages ih =>
      cases stages with
      | nil => simp [hookEvents]
      | cons head rest =>
          cases rest with
          | nil => simpa [hookEvents] using ih head (by simp) (by simpa using ended)
          | cons next later =>
              simpa [hookEvents] using ih head (by simp) fun h => absurd (ended h) (by simp)

end CameraMotion.Animation
