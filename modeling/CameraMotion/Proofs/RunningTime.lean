import CameraMotion.Proofs.Draining
import CameraMotion.Proofs.Fresh

/-!
# Running times

How long an animation runs by itself, against the duration that it promises before its
start.  It is not over before its duration has passed.  Steps are not cut where a part is
over, so every leaf, every parallel and every sequence can make it run on for one step
more, and no longer.

Main results:

- Theorem `Leaf.Fresh.sum_le_of_lasts`: a leaf runs for its duration, and at most a step
  longer.
- Theorem `Animation.Fresh.running_time`: how long an animation runs that has not begun.
- Theorem `Animation.Fresh.play_running_time`: so it does when it is started and time
  passes in it until it is over.
-/

namespace CameraMotion

variable {μ ι : Type} [Motion ℝ μ]

/-! ## Leaves -/

/-- The motion has a duration, and is over exactly when that much time has passed. -/
structure Motion.Exact (m : μ) : Prop where
  nonneg : 0 ≤ Motion.duration m
  finished_iff : ∀ steps : List ℝ, (∀ x ∈ steps, 0 ≤ x) →
    (Motion.finished (steps.foldl Motion.advance m) = true ↔ Motion.duration m ≤ steps.sum)

/-- A ramp at its start is exact. -/
theorem Ramp.exact {r : Ramp ℝ} (start : r.elapsed = 0) (nonneg : 0 ≤ r.duration) :
    Motion.Exact r := by
  refine ⟨nonneg, fun steps _ => ?_⟩
  rcases r.foldl_advance steps with ⟨elapsed, duration⟩
  show decide _ = true ↔ _
  rw [decide_eq_true_eq, duration, elapsed, start, zero_add]
  rfl

namespace Leaf

/-- The leaf is an exact motion, or a follow in which no time has passed. -/
inductive Fresh : Leaf ℝ μ → Prop where
  | motion {m : μ} (h : Motion.Exact m) : Fresh (.motion m)
  | follow {f : Follow ℝ} (h : f.Fresh) : Fresh (.follow f)

namespace Fresh

variable {l : Leaf ℝ μ} {steps : List ℝ}

/-- A fresh leaf takes no negative time. -/
theorem duration_nonneg (h : l.Fresh) : 0 ≤ l.duration := by
  cases h with
  | motion h => exact h.nonneg
  | follow h => exact h.duration_nonneg

/-- The leaf is not over before its duration. -/
theorem duration_le_of_finished (h : l.Fresh) (forward : ∀ x ∈ steps, 0 ≤ x)
    (ended : (steps.foldl Leaf.advance l).finished = true) : l.duration ≤ steps.sum := by
  cases h with
  | motion h =>
      rw [foldl_advance_motion] at ended
      exact (h.finished_iff steps forward).mp ended
  | follow h =>
      rw [foldl_advance_follow] at ended
      exact h.duration_le_of_finished forward ended

/-- The leaf does not go on after its duration. -/
theorem le_duration_of_not_finished (h : l.Fresh) (forward : ∀ x ∈ steps, 0 ≤ x)
    (goes : (steps.foldl Leaf.advance l).finished = false) : steps.sum ≤ l.duration := by
  cases h with
  | motion h =>
      rw [foldl_advance_motion] at goes
      refine le_of_not_ge fun enough => ?_
      exact Bool.false_ne_true (goes.symm.trans ((h.finished_iff steps forward).mpr enough))
  | follow h =>
      rw [foldl_advance_follow] at goes
      exact h.le_duration_of_not_finished forward goes

/-- A leaf runs for its duration, and at most a step longer. -/
theorem sum_le_of_lasts (h : l.Fresh) {listener : ι} {d : ℝ}
    (lasts : (Animation.leaf listener l).Lasts steps) (allowed : ∀ x ∈ steps, 0 ≤ x ∧ x ≤ d) :
    l.duration ≤ steps.sum ∧ steps.sum ≤ l.duration + d := by
  rcases lasts.exists_concat with ⟨ended, before, x, rfl, goes⟩
  have forward : ∀ y ∈ before ++ [x], 0 ≤ y := fun y hy => (allowed y hy).1
  rw [Animation.elapsed_leaf] at ended
  refine ⟨h.duration_le_of_finished forward ended, ?_⟩
  have until_last : before.sum ≤ l.duration := by
    rcases goes with rfl | goes
    · exact h.duration_nonneg
    · rw [Animation.elapsed_leaf] at goes
      exact h.le_duration_of_not_finished
        (fun y hy => forward y (List.mem_append_left _ hy)) goes
  have last : x ≤ d := (allowed x (by simp)).2
  rw [List.sum_append, List.sum_singleton]
  exact add_le_add until_last last

end Fresh

end Leaf

namespace Animation

/-! ## Trees -/

section Nodes

variable {α : Type}

omit [Motion ℝ μ]

/-- The number of leaves, parallels and sequences. -/
def nodes (a : Animation α μ ι) : Nat :=
  a.leaves.length + a.containers

/-- A leaf is one node. -/
theorem nodes_leaf (listener : ι) (body : Leaf α μ) :
    (Animation.leaf listener body).nodes = 1 := by
  simp [nodes, containers]

/-- The leaves and containers of several members are their nodes. -/
private theorem nodes_members (ms : List (Animation α μ ι)) :
    (ms.flatMap leaves).length + containersAll ms = (ms.map nodes).sum := by
  have counted := sum_leaves_add_containersAll (fun _ => 1) ms
  simp only [List.map_const', List.sum_replicate, smul_eq_mul, mul_one] at counted
  exact counted

/-- A parallel is one node more than its members. -/
theorem nodes_parallel (declared : Declarations) (members : List (Animation α μ ι)) :
    (Animation.parallel declared members).nodes = (members.map nodes).sum + 1 := by
  rw [nodes, leaves_parallel, containers, ← add_assoc, nodes_members]

/-- A sequence without stages is one node. -/
theorem nodes_sequence_nil : (Animation.sequence [] : Animation α μ ι).nodes = 1 := by
  simp [nodes, containers, containersAll]

/-- A stage more adds its nodes. -/
theorem nodes_sequence_cons (head : Animation α μ ι) (rest : List (Animation α μ ι)) :
    (Animation.sequence (head :: rest)).nodes =
      head.nodes + (Animation.sequence rest).nodes := by
  simp only [nodes, leaves_sequence, containers, containersAll, List.flatMap_cons,
    List.length_append]
  omega

end Nodes

/-- A leaf of an animation takes as long as the leaf itself. -/
theorem duration_leaf (listener : ι) (body : Leaf ℝ μ) :
    (Animation.leaf listener body).duration = body.duration := by
  rw [duration]

/-- A parallel takes no longer than some time when none of its members does. -/
theorem duration_parallel_le_iff {declared : Declarations} {members : List (Animation ℝ μ ι)}
    {x : ℝ} :
    (Animation.parallel declared members).duration ≤ x ↔
      0 ≤ x ∧ ∀ m ∈ members, m.duration ≤ x := by
  rw [duration, durations_eq]
  have several : ∀ (ds : List ℝ) (least : ℝ),
      ds.foldl Scalar.max least ≤ x ↔ least ≤ x ∧ ∀ d ∈ ds, d ≤ x := by
    intro ds
    induction ds with
    | nil => simp
    | cons d ds ih => simp [ih, and_assoc]
  rw [several, List.forall_mem_map]

/-- A sequence takes as long as all of its stages. -/
theorem duration_sequence (stages : List (Animation ℝ μ ι)) :
    (Animation.sequence stages).duration = (stages.map (·.duration)).sum := by
  rw [duration, durations_eq, List.sum_eq_foldl]

/-- A sequence takes as long as its running stage and then the others. -/
theorem duration_sequence_cons (head : Animation ℝ μ ι) (rest : List (Animation ℝ μ ι)) :
    (Animation.sequence (head :: rest)).duration =
      head.duration + (Animation.sequence rest).duration := by
  rw [duration_sequence, duration_sequence, List.map_cons, List.sum_cons]

/-- Nothing has begun in any leaf. -/
def Fresh (a : Animation ℝ μ ι) : Prop :=
  ∀ l ∈ a.leaves, l.2.Fresh

namespace Fresh

/-- The members of a fresh parallel are fresh. -/
theorem member {declared : Declarations} {members : List (Animation ℝ μ ι)}
    (h : (Animation.parallel declared members).Fresh) : ∀ m ∈ members, m.Fresh := by
  intro m hm l hl
  refine h l ?_
  rw [leaves_parallel]
  exact List.mem_flatMap.mpr ⟨m, hm, hl⟩

/-- The stages of a fresh sequence are fresh. -/
theorem stage {stages : List (Animation ℝ μ ι)} (h : (Animation.sequence stages).Fresh) :
    ∀ m ∈ stages, m.Fresh := by
  intro m hm l hl
  refine h l ?_
  rw [leaves_sequence]
  exact List.mem_flatMap.mpr ⟨m, hm, hl⟩

/-- A fresh animation takes no negative time. -/
theorem duration_nonneg {a : Animation ℝ μ ι} (h : a.Fresh) : 0 ≤ a.duration := by
  induction a with
  | leaf listener body =>
      rw [duration_leaf]
      exact Leaf.Fresh.duration_nonneg (h (listener, body) (by simp))
  | parallel declared members ih => exact (duration_parallel_le_iff.mp le_rfl).1
  | sequence stages ih =>
      rw [duration_sequence]
      exact List.sum_nonneg (List.forall_mem_map.mpr fun m hm => ih m hm (h.stage m hm))

/-- What is over before it has begun takes no time. -/
theorem duration_eq_zero {a : Animation ℝ μ ι} (h : a.Fresh) (ended : a.finished = true) :
    a.duration = 0 := by
  refine le_antisymm ?_ h.duration_nonneg
  induction a with
  | leaf listener body =>
      rw [duration_leaf]
      have fresh : body.Fresh := h (listener, body) (by simp)
      exact fresh.duration_le_of_finished (List.forall_mem_nil _) ended
  | parallel declared members ih =>
      have none : members = [] := by simpa using ended
      exact duration_parallel_le_iff.mpr ⟨le_rfl, by simp [none]⟩
  | sequence stages ih =>
      rw [duration_sequence]
      rcases stages with _ | ⟨head, _ | ⟨next, later⟩⟩
      · simp
      · rw [finished_sequence_single] at ended
        simpa using ih head (by simp) (h.stage head (by simp)) ended
      · simp at ended

/-! ## How long they run -/

variable {d : ℝ} {steps : List ℝ}

/-- Steps that an animation lasts for have a largest length that is not negative. -/
private theorem pace_nonneg {a : Animation ℝ μ ι} (lasts : a.Lasts steps)
    (allowed : ∀ x ∈ steps, 0 ≤ x ∧ x ≤ d) : 0 ≤ d := by
  rcases List.exists_mem_of_ne_nil steps (lasts_iff.mp lasts).1 with ⟨x, hx⟩
  exact (allowed x hx).1.trans (allowed x hx).2

/-- A parallel whose members keep to their durations keeps to its own: it runs for as
long as its slowest member, and one step when it has none. -/
private theorem running_time_parallel {declared : Declarations}
    {members : List (Animation ℝ μ ι)}
    (each : ∀ m ∈ members, ∀ block : List ℝ, m.Lasts block → (∀ x ∈ block, 0 ≤ x ∧ x ≤ d) →
      m.duration ≤ block.sum ∧ block.sum ≤ m.duration + m.nodes * d)
    (lasts : (Animation.parallel declared members).Lasts steps)
    (allowed : ∀ x ∈ steps, 0 ≤ x ∧ x ≤ d) :
    (Animation.parallel declared members).duration ≤ steps.sum ∧
      steps.sum ≤ (Animation.parallel declared members).duration +
        (Animation.parallel declared members).nodes * d := by
  rcases lasts.members with ⟨shorter, last, none⟩
  have slowest : 0 ≤ (Animation.parallel declared members).duration ∧
      ∀ m ∈ members, m.duration ≤ (Animation.parallel declared members).duration :=
    duration_parallel_le_iff.mp le_rfl
  constructor
  · have passed : 0 ≤ steps.sum := List.sum_nonneg fun x hx => (allowed x hx).1
    refine duration_parallel_le_iff.mpr ⟨passed, fun m hm => ?_⟩
    rcases shorter m hm with ⟨block, ⟨rest, rfl⟩, here⟩
    have later : 0 ≤ rest.sum :=
      List.sum_nonneg fun x hx => (allowed x (List.mem_append_right _ hx)).1
    calc m.duration
        _ ≤ block.sum :=
          (each m hm block here fun x hx => allowed x (List.mem_append_left _ hx)).1
        _ ≤ (block ++ rest).sum := by rw [List.sum_append]; exact le_add_of_nonneg_right later
  · rw [nodes_parallel]
    by_cases alone : members = []
    · obtain ⟨x, rfl⟩ := List.length_eq_one_iff.mp (none alone)
      have here : x ≤ d := (allowed x (by simp)).2
      subst alone
      simpa using add_le_add slowest.1 here
    · rcases last alone with ⟨m, hm, lasts⟩
      have fewer : m.nodes ≤ (members.map nodes).sum + 1 :=
        Nat.le_succ_of_le (List.single_le_sum (by simp) _ (List.mem_map_of_mem hm))
      calc steps.sum
          _ ≤ m.duration + m.nodes * d := (each m hm steps lasts allowed).2
          _ ≤ (Animation.parallel declared members).duration +
              ((members.map nodes).sum + 1 : Nat) * d :=
            add_le_add (slowest.2 m hm)
              (mul_le_mul_of_nonneg_right (Nat.cast_le.mpr fewer) (pace_nonneg lasts allowed))

/-- A sequence whose stages keep to their durations keeps to its own.  The stages that are
left when the running one is over are a sequence again; only a last stage that takes no
time may be over without a step. -/
private theorem running_time_sequence {stages : List (Animation ℝ μ ι)}
    (fresh : (Animation.sequence stages).Fresh)
    (each : ∀ m ∈ stages, ∀ block : List ℝ, m.Lasts block → (∀ x ∈ block, 0 ≤ x ∧ x ≤ d) →
      m.duration ≤ block.sum ∧ block.sum ≤ m.duration + m.nodes * d)
    (lasts : (Animation.sequence stages).Lasts steps)
    (allowed : ∀ x ∈ steps, 0 ≤ x ∧ x ≤ d) :
    (Animation.sequence stages).duration ≤ steps.sum ∧
      steps.sum ≤ (Animation.sequence stages).duration +
        (Animation.sequence stages).nodes * d := by
  have pace := pace_nonneg lasts allowed
  induction stages generalizing steps with
  | nil =>
      cases lasts with
      | ends _ =>
          rw [duration_sequence, nodes_sequence_nil]
          simpa using allowed
      | goes stays _ => simp [finished] at stays
  | cons head rest ih =>
      rw [duration_sequence_cons, nodes_sequence_cons, Nat.cast_add, add_mul]
      have fresh' : (Animation.sequence rest).Fresh := fun l hl => fresh l (by
        rw [leaves_sequence] at hl ⊢
        exact List.mem_append_right _ hl)
      have split : ∃ block left, steps = block ++ left ∧ head.Lasts block ∧
          ((left = [] ∧ (Animation.sequence rest).finished = true) ∨
            (Animation.sequence rest).Lasts left) := by
        cases rest with
        | nil => exact ⟨steps, [], by simp, lasts.stage, .inl ⟨rfl, rfl⟩⟩
        | cons next later => exact lasts.stages
      rcases split with ⟨block, left, rfl, here, after⟩
      have first := each head (by simp) block here fun x hx =>
        allowed x (List.mem_append_left _ hx)
      have second : (Animation.sequence rest).duration ≤ left.sum ∧
          left.sum ≤ (Animation.sequence rest).duration +
            (Animation.sequence rest).nodes * d := by
        rcases after with ⟨rfl, past⟩ | lasts
        · rw [fresh'.duration_eq_zero past, List.sum_nil, zero_add]
          exact ⟨le_rfl, mul_nonneg (Nat.cast_nonneg _) pace⟩
        · exact ih fresh' (fun m hm => each m (List.mem_cons_of_mem _ hm)) lasts
            (fun x hx => allowed x (List.mem_append_right _ hx))
      rw [List.sum_append]
      constructor <;> linarith [first.1, first.2, second.1, second.2]

/-- An animation that has not begun runs for its duration, and on for at most a step for
each leaf, parallel and sequence in it. -/
theorem running_time {a : Animation ℝ μ ι} (h : a.Fresh) (lasts : a.Lasts steps)
    (allowed : ∀ x ∈ steps, 0 ≤ x ∧ x ≤ d) :
    a.duration ≤ steps.sum ∧ steps.sum ≤ a.duration + a.nodes * d := by
  induction a generalizing steps with
  | leaf listener body =>
      rw [duration_leaf, nodes_leaf, Nat.cast_one, one_mul]
      exact Leaf.Fresh.sum_le_of_lasts (h (listener, body) (by simp)) lasts allowed
  | parallel declared members ih =>
      refine running_time_parallel (fun m hm block here allowed => ?_) lasts allowed
      exact ih m hm (h.member m hm) here allowed
  | sequence stages ih =>
      refine running_time_sequence h (fun m hm block here allowed => ?_) lasts allowed
      exact ih m hm (h.stage m hm) here allowed

/-- Start an animation that has not begun, and let time pass until it is over for the
first time: its duration has passed then, and at most a step more for each leaf, parallel
and sequence in it. -/
theorem play_running_time {a : Animation ℝ μ ι} (h : a.Fresh) {d : ℝ} {steps : List ℝ}
    (some : steps ≠ []) (allowed : ∀ x ∈ steps, 0 ≤ x ∧ x ≤ d)
    (ended : (a.play steps).value.finished = true)
    (first : ∀ fewer, fewer ≠ [] → fewer <+: steps → fewer ≠ steps →
      (a.play fewer).value.finished = false) :
    a.duration ≤ steps.sum ∧ steps.sum ≤ a.duration + a.nodes * d := by
  simp only [value_play] at ended first
  exact h.running_time (lasts_iff.mpr ⟨some, ended, first⟩) allowed

section

open Scheduler (rampThenZoom duration_zoom finished_zoom)

/-- The zoom to twice the scale is fresh. -/
private theorem fresh_zoom : ((Follow.empty .standard).withZoom 1 2 : Follow ℝ).Fresh :=
  (Follow.Fresh.empty _).withZoom 1 2

/-- The ramp and the zoom are fresh. -/
private theorem fresh_rampThenZoom : rampThenZoom.Fresh := by
  intro l hl
  simp only [rampThenZoom, inTurn, leaves_sequence, List.flatMap_cons, leaves_leaf,
    List.flatMap_nil, List.append_nil, List.singleton_append, List.mem_pair] at hl
  rcases hl with rfl | rfl
  · exact .motion (Ramp.exact rfl zero_le_one)
  · exact .follow fresh_zoom

/-- After a second the zoom is left. -/
private theorem elapsed_one_rampThenZoom :
    rampThenZoom.elapsed [1] =
      .sequence [.leaf 1 (.follow ((Follow.empty .standard).withZoom 1 2))] := by
  rw [elapsed_cons, elapsed_nil, rampThenZoom, inTurn, advanced_sequence_cons_cons,
    advanced_leaf, if_pos]
  simp [finished, Leaf.finished, Leaf.advance, Motion.finished, Motion.advance, Ramp.finished,
    Ramp.advance]

/-- A second for the ramp and one for the zoom are more than the duration of both. -/
theorem play_running_time_rampThenZoom :
    rampThenZoom.duration ≤ ([1, 1] : List ℝ).sum ∧
      ([1, 1] : List ℝ).sum ≤ rampThenZoom.duration + rampThenZoom.nodes * 1 := by
  refine fresh_rampThenZoom.play_running_time (by simp) (by simp) ?_ fun fewer some pre less => ?_
  · have whole : rampThenZoom.elapsed [1, 1] = (rampThenZoom.elapsed [1]).elapsed [1] := rfl
    rw [value_play, whole, elapsed_one_rampThenZoom, elapsed_cons, elapsed_nil,
      advanced_sequence_single, finished_sequence_single, advanced_leaf]
    exact finished_zoom
  · obtain rfl : fewer = [1] := by
      rw [← List.mem_inits] at pre
      simpa [some, less] using pre
    rw [value_play, elapsed_one_rampThenZoom, finished_sequence_single]
    by_contra ended
    have instant : Follow.duration _ ≤ ([] : List ℝ).sum :=
      fresh_zoom.duration_le_of_finished (by simp) (Bool.not_eq_false _ ▸ ended)
    rw [duration_zoom] at instant
    norm_num at instant

end

end Fresh

end Animation

end CameraMotion
