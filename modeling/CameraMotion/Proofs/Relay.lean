import CameraMotion.Proofs.Alone

/-!
# Stage by stage

A sequence is a relay: every stage runs as it does by itself until it is over for the
first time, and hands over to the next one, which starts at once.  The step in which a
stage is over is its own to the end; the stage that starts has its first step when time
passes again.  The last stage has nobody to hand over to and runs on for as long as time
passes, so a sequence is over only when its last stage runs and is over.

Main results:

- Theorem `Animation.elapse_sequence`: while its stage goes on, a sequence does what the
  stage does by itself.
- Theorem `Animation.elapse_sequence_of_lasts`: once its stage is over, a sequence goes on
  as the sequence of the later stages does from its start.
- Theorem `Animation.Relay.unique`: there is one way to cut steps into the laps of stages.
- Theorem `Animation.play_inTurn`: a sequence runs its stages in these laps.
-/

namespace CameraMotion.Animation

variable {α μ ι : Type} [Scalar α] [Motion α μ]

/-! ## The running stage -/

/-- A sequence is over when it is on its last stage and that is over. -/
theorem finished_sequence_iff {head : Animation α μ ι} {rest : List (Animation α μ ι)} :
    (Animation.sequence (head :: rest)).finished = true ↔ rest = [] ∧ head.finished = true := by
  cases rest <;> simp

/-- In a sequence without stages nothing happens. -/
theorem elapse_sequence_nil (steps : List α) :
    (Animation.sequence [] : Animation α μ ι).elapse steps = pure (.sequence []) := by
  induction steps with
  | nil => rfl
  | cons x steps ih =>
      ext1 <;> simp [elapse, advance, advanceStages, ih]

variable {head next : Animation α μ ι} {rest later : List (Animation α μ ι)} {x : α}
  {steps block : List α}

/-- A stage that goes on, or has nobody to hand over to, stays where it is. -/
theorem advance_sequence (goes : rest ≠ [] → (head.advanced x).finished = false) :
    (Animation.sequence (head :: rest)).advance x =
      ⟨.sequence (head.advanced x :: rest), (head.advance x).log⟩ := by
  cases rest with
  | nil => ext1 <;> simp [advance, advanceStages, advanced]
  | cons next later =>
      have stays : (head.advance x).value.finished = false := goes (List.cons_ne_nil _ _)
      ext1 <;> simp [advance, advanceStages, advanced, stays]

/-- A stage that is over is told of its finish, and hands over to the next one. -/
theorem advance_sequence_of_finished (ended : (head.advanced x).finished = true) :
    (Animation.sequence (head :: next :: later)).advance x =
      ⟨.sequence (next :: later), (head.advance x).log ++
        ((head.advanced x).tell .finish).log ++ ((inTurn (next :: later)).tell .start).log⟩ := by
  have ended : (head.advance x).value.finished = true := ended
  ext1 <;> simp [advance, advanceStages, advanced, ended, inTurn, tell, hookEvents]

/-- While its stage goes on, or has nobody to hand over to, a sequence does what the stage
does by itself. -/
theorem elapse_sequence (goes : rest ≠ [] → head.outlasts steps = true) :
    (Animation.sequence (head :: rest)).elapse steps =
      ⟨.sequence (head.elapsed steps :: rest), (head.elapse steps).log⟩ := by
  induction steps generalizing head with
  | nil => rfl
  | cons x steps ih =>
      have stays : rest ≠ [] →
          (head.advanced x).finished = false ∧ (head.advanced x).outlasts steps = true := by
        simpa using goes
      have after := ih fun some => (stays some).2
      rw [elapse, advance_sequence fun some => (stays some).1]
      ext1
      · rw [Logged.value_bind, after, elapsed_cons]
      · rw [Logged.log_bind, after, log_elapse_cons]

/-- Once its stage is over, a sequence goes on as the sequence of the later stages does
from its start. -/
theorem elapse_sequence_of_lasts (lasts : head.Lasts block) (after : List α) :
    (Animation.sequence (head :: next :: later)).elapse (block ++ after) = (do
      let last ← head.elapse block
      last.tell .finish
      (inTurn (next :: later)).play after) := by
  induction lasts with
  | ends ended =>
      rw [List.singleton_append, elapse, advance_sequence_of_finished ended]
      ext1 <;> simp [elapse, play, advanced, inTurn]
  | goes stays _ ih =>
      rw [List.cons_append, elapse, advance_sequence fun _ => stays]
      ext1
      · rw [Logged.value_bind, ih]
        rfl
      · rw [Logged.log_bind, ih]
        simp [log_elapse_cons]

/-! ## Laps -/

/-- A stage that is over, and the steps that it took. -/
structure Lap (α μ ι : Type) where
  stage : Animation α μ ι
  steps : List α

/-- What is logged while a stage runs by itself, from its start to its finish. -/
def Lap.log (lap : Lap α μ ι) : List (Event α μ ι) :=
  (lap.stage.play lap.steps).log ++ ((lap.stage.elapsed lap.steps).tell .finish).log

/-- How far stages have come in some steps when they run one after the other. -/
structure Relay (stages : List (Animation α μ ι)) (steps : List α) where
  /-- The stages that are over, and the steps that each of them took. -/
  laps : List (Lap α μ ι)
  /-- The stage that runs. -/
  stage : Animation α μ ι
  /-- The steps that it has had, none if it has started just now. -/
  block : List α
  /-- The stages to come. -/
  later : List (Animation α μ ι)
  stages_eq : stages = laps.map (·.stage) ++ stage :: later
  /-- The steps are cut into the laps and the block of the running stage, and nothing is
  left out or used twice. -/
  steps_eq : steps = laps.flatMap (·.steps) ++ block
  /-- A lap ends with the step in which its stage is over for the first time. -/
  lasts : ∀ lap ∈ laps, lap.stage.Lasts lap.steps
  /-- The running stage goes on, unless it is the last one. -/
  goes : later ≠ [] → stage.outlasts block = true

namespace Relay

variable {stages : List (Animation α μ ι)}

/-- The running stage runs first. -/
def begin (goes : rest ≠ [] → head.outlasts steps = true) : Relay (head :: rest) steps where
  laps := []
  stage := head
  block := steps
  later := rest
  stages_eq := rfl
  steps_eq := rfl
  lasts := by simp
  goes := goes

/-- A stage that is over runs before a relay. -/
def handOver (lasts : head.Lasts block) (r : Relay stages steps) :
    Relay (head :: stages) (block ++ steps) where
  laps := ⟨head, block⟩ :: r.laps
  stage := r.stage
  block := r.block
  later := r.later
  stages_eq := congrArg _ r.stages_eq
  steps_eq := by
    rw [List.flatMap_cons, List.append_assoc]
    exact congrArg _ r.steps_eq
  lasts := List.forall_mem_cons.mpr ⟨lasts, r.lasts⟩
  goes := r.goes

/-- What is logged in a relay: lap after lap, and then what the running stage does by
itself. -/
def log (r : Relay stages steps) : List (Event α μ ι) :=
  r.laps.flatMap (·.log) ++ (r.stage.play r.block).log

/-- A stage that goes on has not handed over. -/
private theorem not_handed_over {stage last : Animation α μ ι} {lap : Lap α μ ι}
    {between after : List (Animation α μ ι)} {left : List α}
    (goes : later ≠ [] → stage.outlasts block = true) (lasts : lap.stage.Lasts lap.steps)
    (same : stage :: later = lap.stage :: (between ++ last :: after))
    (cut : block = lap.steps ++ left) : False := by
  obtain ⟨rfl, rfl⟩ := List.cons.inj same
  have goes := goes (by simp)
  rw [cut, lasts.outlasts_append] at goes
  exact Bool.false_ne_true goes

/-- There is one way to cut steps into the laps of stages. -/
theorem unique (r other : Relay stages steps) : other = r := by
  rcases r with ⟨laps, stage, block, later, stages_eq, steps_eq, lasts, goes⟩
  rcases other with ⟨laps', stage', block', later', stages_eq', steps_eq', lasts', goes'⟩
  suffices laps' = laps ∧ stage' = stage ∧ block' = block ∧ later' = later by
    rcases this with ⟨rfl, rfl, rfl, rfl⟩
    rfl
  have stages_same := stages_eq'.symm.trans stages_eq
  have steps_same := steps_eq'.symm.trans steps_eq
  clear stages_eq steps_eq stages_eq' steps_eq'
  induction laps generalizing laps' with
  | nil =>
      cases laps' with
      | nil =>
          obtain ⟨first, others⟩ := List.cons.inj stages_same
          exact ⟨rfl, first, steps_same, others⟩
      | cons lap laps' =>
          simp only [List.flatMap_cons, List.append_assoc] at steps_same
          exact (not_handed_over goes (lasts' lap (by simp)) stages_same.symm steps_same.symm).elim
  | cons lap laps ih =>
      cases laps' with
      | nil =>
          simp only [List.flatMap_cons, List.append_assoc] at steps_same
          exact (not_handed_over goes' (lasts lap (by simp)) stages_same steps_same).elim
      | cons lap' laps' =>
          obtain ⟨first, others⟩ := List.cons.inj stages_same
          rcases lap with ⟨stage₁, block₁⟩
          rcases lap' with ⟨stage₂, block₂⟩
          obtain rfl : stage₂ = stage₁ := first
          simp only [List.flatMap_cons, List.append_assoc] at steps_same
          obtain rfl : block₂ = block₁ :=
            (lasts' _ List.mem_cons_self).unique (lasts _ List.mem_cons_self) steps_same
          have rest := ih (fun lap hl => lasts lap (List.mem_cons_of_mem _ hl)) laps'
            (fun lap hl => lasts' lap (List.mem_cons_of_mem _ hl)) others
            (List.append_cancel_left steps_same)
          exact rest.imp_left (congrArg _)

end Relay

/-! ## Sequences -/

/-- A play is logged from the start on. -/
theorem log_play (steps : List α) (a : Animation α μ ι) :
    (a.play steps).log = (a.tell .start).log ++ (a.elapse steps).log :=
  rfl

/-- A sequence with a stage runs the relay of its stages. -/
theorem exists_relay (head : Animation α μ ι) (rest : List (Animation α μ ι)) (steps : List α) :
    ∃ r : Relay (head :: rest) steps, (inTurn (head :: rest)).play steps =
      ⟨.sequence (r.stage.elapsed r.block :: r.later), r.log⟩ := by
  induction rest generalizing head steps with
  | nil =>
      have goes : ([] : List (Animation α μ ι)) ≠ [] → head.outlasts steps = true :=
        fun some => absurd rfl some
      refine ⟨.begin goes, ?_⟩
      rw [inTurn, play, elapse_sequence goes]
      rfl
  | cons next later ih =>
      cases goes : head.outlasts steps with
      | true =>
          refine ⟨.begin fun _ => goes, ?_⟩
          rw [inTurn, play, elapse_sequence fun _ => goes]
          rfl
      | false =>
          rcases exists_lasts goes with ⟨block, after, rfl, lasts⟩
          rcases ih next after with ⟨r, eq⟩
          refine ⟨r.handOver lasts, ?_⟩
          rw [inTurn, play, elapse_sequence_of_lasts lasts, eq]
          ext1
          · rfl
          · simp [Relay.log, Relay.handOver, Lap.log, log_play, tell, hookEvents]

/-- A sequence without stages is over and does nothing.  Any other one runs its stages one
after the other: each of them is started, runs as it does by itself for the steps of its
lap, at least one, and is told of its finish; the next one is started then, and the
running one is in the state that it has by itself after its own steps.  The sequence is
over when the last stage runs and is over. -/
theorem play_inTurn (stages : List (Animation α μ ι)) (steps : List α) :
    (stages = [] ∧ (inTurn stages).play steps = pure (inTurn []) ∧
      ((inTurn stages).elapsed steps).finished = true) ∨
    ∃ r : Relay stages steps, (∀ other : Relay stages steps, other = r) ∧
      (∀ lap ∈ r.laps, lap.steps ≠ []) ∧
      (inTurn stages).play steps = ⟨.sequence (r.stage.elapsed r.block :: r.later), r.log⟩ ∧
      (((inTurn stages).elapsed steps).finished = true ↔
        r.later = [] ∧ (r.stage.elapsed r.block).finished = true) := by
  cases stages with
  | nil =>
      have idle : (inTurn [] : Animation α μ ι).play steps = pure (inTurn []) :=
        elapse_sequence_nil steps
      refine .inl ⟨rfl, idle, ?_⟩
      rw [← value_play, idle]
      rfl
  | cons head rest =>
      rcases exists_relay head rest steps with ⟨r, eq⟩
      refine .inr ⟨r, r.unique, fun lap hl => (lasts_iff.mp (r.lasts lap hl)).1, eq, ?_⟩
      rw [← value_play, eq, finished_sequence_iff]

end CameraMotion.Animation
