import CameraMotion.Scalar.Real
import CameraMotion.Leaf
import CameraMotion.Motion.Ramp
import Mathlib.Algebra.Order.BigOperators.Group.List
import Mathlib.Algebra.Order.Floor.Semiring

/-!
# Leaves that end in time

A motion is punctual when it is over as soon as its duration has passed.  A follow is not
quite: each of its parts needs a moment more than its duration.  Both are over once more
time than their duration has passed, and so after so many steps of some length as fit
into the duration, and one more.

Main results:

- Theorem `Follow.Made.finished`: a follow is over once more than its duration has
  passed.
- Theorem `Ramp.punctual`: so is a ramp, without the moment more.
- Theorem `Leaf.Timely.finished_of_calls`: how many steps a leaf takes at most.
-/

namespace CameraMotion

/-! ## Motions -/

/-- Whenever the motion is asked for its duration, it is over once that much time has
passed from then on. -/
def Motion.Punctual {μ : Type} [Motion ℝ μ] (m : μ) : Prop :=
  ∀ before after : List ℝ, (∀ x ∈ before, 0 ≤ x) → (∀ x ∈ after, 0 ≤ x) →
    Motion.duration (before.foldl Motion.advance m) ≤ after.sum →
    Motion.finished (after.foldl Motion.advance (before.foldl Motion.advance m)) = true

/-- A punctual motion stays punctual while time passes. -/
theorem Motion.Punctual.advance {μ : Type} [Motion ℝ μ] {m : μ} (h : Motion.Punctual m)
    {seconds : ℝ} (forward : 0 ≤ seconds) : Motion.Punctual (Motion.advance m seconds) := by
  intro before after hb ha enough
  exact h (seconds :: before) after (by simpa using ⟨forward, hb⟩) ha enough

/-- Time adds up in a ramp and leaves its duration alone. -/
theorem Ramp.foldl_advance (r : Ramp ℝ) (steps : List ℝ) :
    (steps.foldl Motion.advance r).elapsed = r.elapsed + steps.sum ∧
      (steps.foldl Motion.advance r).duration = r.duration := by
  induction steps generalizing r with
  | nil => simp
  | cons x steps ih =>
      have ih := ih (r.advance x)
      rw [Ramp.advance] at ih
      exact ⟨by rw [List.foldl_cons, List.sum_cons, ← add_assoc]; exact ih.1, ih.2⟩

/-- A ramp that has not been turned back is punctual. -/
theorem Ramp.punctual {r : Ramp ℝ} (started : 0 ≤ r.elapsed) : Motion.Punctual r := by
  intro before after hb ha enough
  have passed := List.sum_nonneg hb
  rw [show Motion.duration (before.foldl Motion.advance r) = r.duration from
    (r.foldl_advance before).2] at enough
  rw [← List.foldl_append]
  rcases r.foldl_advance (before ++ after) with ⟨elapsed, duration⟩
  show decide _ = true
  rw [decide_eq_true_eq, duration, elapsed, List.sum_append]
  linarith

/-! ## Clocks -/

namespace Clock

/-- The clock has no delay and has not been turned back. -/
def Prompt (c : Clock ℝ) : Prop :=
  c.delay = 0 ∧ 0 ≤ c.elapsed

/-- A clock without delay is prompt when it starts. -/
theorem prompt_start (duration : ℝ) : (start duration 0).Prompt := by
  simp [Prompt, start]

/-- A prompt clock stays prompt while time passes. -/
theorem Prompt.advance {c : Clock ℝ} (h : c.Prompt) {seconds : ℝ} (forward : 0 ≤ seconds) :
    (c.advance seconds).Prompt :=
  ⟨h.1, add_nonneg h.2 forward⟩

/-- A prompt clock stays prompt when it is capped. -/
theorem Prompt.cap {c : Clock ℝ} (h : c.Prompt) (limit : ℝ) : (c.cap limit).Prompt :=
  h

/-- Time adds up in a clock. -/
theorem foldl_advance (c : Clock ℝ) (steps : List ℝ) :
    steps.foldl advance c = { c with elapsed := c.elapsed + steps.sum } := by
  induction steps generalizing c with
  | nil => simp
  | cons x steps ih => rw [List.foldl_cons, ih, List.sum_cons, ← add_assoc]; rfl

/-- A clock is over with its delay if it has no duration, and otherwise after its delay and
its duration together. -/
theorem finished_iff {c : Clock ℝ} :
    c.finished = true ↔
      if c.duration = 0 then c.delay ≤ c.elapsed else c.duration + c.delay < c.elapsed := by
  simp only [finished, beq_iff_eq]
  split <;> rw [decide_eq_true_iff]

/-- A clock without delay is over once more than its duration has passed. -/
theorem Prompt.finished_of_lt {c : Clock ℝ} (h : c.Prompt) {steps : List ℝ}
    (enough : c.duration < steps.sum) : (steps.foldl Clock.advance c).finished = true := by
  rcases h with ⟨delay, elapsed⟩
  rw [foldl_advance, finished_iff]
  split <;> simp only [delay] <;> linarith

end Clock

/-! ## Follows -/

namespace Follow

/-- The clocks of the parts. -/
def clocks {α : Type} (f : Follow α) : List (Clock α) :=
  (f.angle.map (·.clock)).toList ++ (f.scale.map (·.clock)).toList ++
    (f.position.map (·.clock)).toList

section

variable {α : Type} [Scalar α]

/-- Time passes in each clock of a follow. -/
theorem clocks_advance (f : Follow α) (seconds : α) :
    (f.advance seconds).clocks = f.clocks.map (·.advance seconds) := by
  rcases f with ⟨timing, _ | _, _ | _, _ | _⟩ <;> rfl

/-- Each clock of a follow is capped. -/
theorem clocks_cap (f : Follow α) (limit : α) :
    (f.cap limit).clocks = f.clocks.map (·.cap limit) := by
  rcases f with ⟨timing, _ | _, _ | _, _ | _⟩ <;> rfl

/-- A follow is over when its clocks are. -/
theorem finished_eq (f : Follow α) : f.finished = f.clocks.all (·.finished) := by
  rcases f with ⟨timing, _ | _, _ | _, _ | _⟩ <;>
    simp [finished, clocks, Tween.finished, Bool.and_assoc]

end

/-- No part takes longer than the follow. -/
theorem duration_le {f : Follow ℝ} {c : Clock ℝ} (h : c ∈ f.clocks) :
    c.duration ≤ f.duration := by
  rcases f with ⟨timing, _ | _, _ | _, _ | _⟩ <;>
    simp [clocks] at h <;> rcases h with rfl | rfl | rfl <;> simp [duration, Tween.duration]

/-- Follows that can be made: from the empty one, part by part, and possibly advanced or
capped on the way. -/
inductive Made : Follow ℝ → Prop where
  | empty (timing : Timing ℝ) : Made (.empty timing)
  | withMove {f : Follow ℝ} (h : Made f) (start stop : Point ℝ) (v : Viewport ℝ) :
      Made (f.withMove start stop v)
  | withTurn {f : Follow ℝ} (h : Made f) (start stop : ℝ) : Made (f.withTurn start stop)
  | withZoom {f : Follow ℝ} (h : Made f) (start stop : ℝ) : Made (f.withZoom start stop)
  | advance {f : Follow ℝ} (h : Made f) {seconds : ℝ} (forward : 0 ≤ seconds) :
      Made (f.advance seconds)
  | cap {f : Follow ℝ} (h : Made f) (limit : ℝ) : Made (f.cap limit)

/-- A move brings at most one new clock, without delay. -/
theorem mem_clocks_withMove {f : Follow ℝ} {start stop : Point ℝ} {v : Viewport ℝ} {c : Clock ℝ}
    (h : c ∈ (f.withMove start stop v).clocks) :
    c ∈ f.clocks ∨ ∃ duration, c = .start duration 0 := by
  unfold withMove at h
  split at h
  · exact .inl h
  · rw [clocks, List.mem_append] at h
    rcases h with h | h
    · exact .inl (List.mem_append_left _ h)
    · exact .inr ⟨_, List.mem_singleton.mp h⟩

/-- A turn brings at most one new clock, without delay. -/
theorem mem_clocks_withTurn {f : Follow ℝ} {start stop : ℝ} {c : Clock ℝ}
    (h : c ∈ (f.withTurn start stop).clocks) :
    c ∈ f.clocks ∨ ∃ duration, c = .start duration 0 := by
  unfold withTurn at h
  split at h
  · exact .inl h
  · rw [clocks, List.append_assoc, List.mem_append] at h
    rcases h with h | h
    · exact .inr ⟨_, List.mem_singleton.mp h⟩
    · rw [clocks, List.append_assoc]
      exact .inl (List.mem_append_right _ h)

/-- A zoom brings at most one new clock, without delay. -/
theorem mem_clocks_withZoom {f : Follow ℝ} {start stop : ℝ} {c : Clock ℝ}
    (h : c ∈ (f.withZoom start stop).clocks) :
    c ∈ f.clocks ∨ ∃ duration, c = .start duration 0 := by
  unfold withZoom at h
  split at h
  · exact .inl h
  · rw [clocks, List.mem_append, List.mem_append] at h
    rw [clocks, List.mem_append, List.mem_append]
    rcases h with (h | h) | h
    · exact .inl (.inl (.inl h))
    · exact .inr ⟨_, List.mem_singleton.mp h⟩
    · exact .inl (.inr h)

namespace Made

/-- No part of a follow is delayed or turned back. -/
theorem prompt {f : Follow ℝ} (h : f.Made) : ∀ c ∈ f.clocks, c.Prompt := by
  have fresh {c : Clock ℝ} (new : ∃ duration, c = .start duration 0) : c.Prompt := by
    rcases new with ⟨duration, rfl⟩
    exact Clock.prompt_start duration
  induction h with
  | empty timing => simp [clocks, Follow.empty]
  | withMove _ start stop v ih => exact fun c hc => (mem_clocks_withMove hc).elim (ih c) fresh
  | withTurn _ start stop ih => exact fun c hc => (mem_clocks_withTurn hc).elim (ih c) fresh
  | withZoom _ start stop ih => exact fun c hc => (mem_clocks_withZoom hc).elim (ih c) fresh
  | advance _ forward ih =>
      intro c hc
      rw [clocks_advance] at hc
      rcases List.mem_map.mp hc with ⟨before, there, rfl⟩
      exact (ih before there).advance forward
  | cap _ limit ih =>
      intro c hc
      rw [clocks_cap] at hc
      rcases List.mem_map.mp hc with ⟨before, there, rfl⟩
      exact (ih before there).cap limit

end Made

/-- Time adds up in each clock of a follow. -/
theorem clocks_foldl_advance (f : Follow ℝ) (steps : List ℝ) :
    (steps.foldl advance f).clocks = f.clocks.map fun c => steps.foldl Clock.advance c := by
  induction steps generalizing f with
  | nil => simp
  | cons x steps ih => simp [ih, clocks_advance]

/-- A follow is over once more than its duration has passed. -/
theorem Made.finished {f : Follow ℝ} (h : f.Made) {steps : List ℝ}
    (enough : f.duration < steps.sum) : (steps.foldl Follow.advance f).finished = true := by
  rw [finished_eq, clocks_foldl_advance, List.all_map, List.all_eq_true]
  intro c hc
  exact Clock.Prompt.finished_of_lt (h.prompt c hc) (lt_of_le_of_lt (duration_le hc) enough)

end Follow

/-! ## Leaves -/

namespace Leaf

variable {μ : Type} [Motion ℝ μ]

/-- The leaf ends in time: it is a punctual motion or a follow. -/
inductive Timely : Leaf ℝ μ → Prop where
  | motion {m : μ} (h : Motion.Punctual m) : Timely (.motion m)
  | follow {f : Follow ℝ} (h : f.Made) : Timely (.follow f)

/-- A timely leaf stays timely while time passes. -/
theorem Timely.advance {l : Leaf ℝ μ} (h : l.Timely) {seconds : ℝ} (forward : 0 ≤ seconds) :
    (l.advance seconds).Timely := by
  cases h with
  | motion h => exact .motion (h.advance forward)
  | follow h => exact .follow (h.advance forward)

/-- Time that passes in a leaf passes in its motion. -/
theorem foldl_advance_motion (m : μ) (steps : List ℝ) :
    steps.foldl advance (.motion m) = .motion (steps.foldl Motion.advance m) :=
  List.foldl_hom Leaf.motion fun _ _ => rfl

/-- Time that passes in a leaf passes in its follow. -/
theorem foldl_advance_follow (f : Follow ℝ) (steps : List ℝ) :
    steps.foldl advance (.follow f : Leaf ℝ μ) = .follow (steps.foldl Follow.advance f) :=
  List.foldl_hom Leaf.follow fun _ _ => rfl

/-- A leaf is over once more than its duration has passed. -/
theorem Timely.finished {l : Leaf ℝ μ} (h : l.Timely) {steps : List ℝ}
    (forward : ∀ x ∈ steps, 0 ≤ x) (enough : l.duration < steps.sum) :
    (steps.foldl Leaf.advance l).finished = true := by
  cases h with
  | motion h =>
      rw [foldl_advance_motion]
      exact h [] steps (by simp) forward (le_of_lt enough)
  | follow h =>
      rw [foldl_advance_follow]
      exact h.finished enough

/-- How many steps of some length the leaf takes at most: as many as fit into its
duration, and one more. -/
noncomputable def calls (d : ℝ) (l : Leaf ℝ μ) : Nat :=
  ⌊max l.duration 0 / d⌋₊ + 1

/-- A leaf is over after so many steps of at least some length. -/
theorem Timely.finished_of_calls {l : Leaf ℝ μ} (h : l.Timely) {d : ℝ} (positive : 0 < d)
    {steps : List ℝ} (paced : ∀ x ∈ steps, d ≤ x) (enough : l.calls d ≤ steps.length) :
    (steps.foldl Leaf.advance l).finished = true := by
  refine h.finished (fun x hx => le_trans (le_of_lt positive) (paced x hx)) ?_
  calc l.duration
      _ ≤ max l.duration 0 := le_max_left _ _
      _ < l.calls d * d := by
        rw [← div_lt_iff₀ positive, calls, Nat.cast_add_one]
        exact Nat.lt_floor_add_one _
      _ ≤ steps.length * d := by
        exact mul_le_mul_of_nonneg_right (Nat.cast_le.mpr enough) (le_of_lt positive)
      _ ≤ steps.sum := by
        rw [← nsmul_eq_mul]
        exact List.card_nsmul_le_sum steps d paced

end Leaf

end CameraMotion
