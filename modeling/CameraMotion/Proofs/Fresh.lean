import CameraMotion.Proofs.Punctual

/-!
# Follows at their start

A follow that has been built, and possibly capped, but in which no time has passed yet.
All of its clocks stand at their start, and whatever it drives it shows at its start,
which is not its end.  Its duration is that of its slowest part: it is over only once
that much time has passed, and goes on no longer than that.

Main results:

- Theorem `Follow.Fresh.duration_le_of_finished`: it is not over before its duration.
- Theorem `Follow.Fresh.le_duration_of_not_finished`: it does not go on after its
  duration.
- Theorem `Follow.Fresh.reading?_ne_target?`: it shows the end of nothing that it drives.
-/

namespace CameraMotion

/-! ## Clocks -/

namespace Clock

/-- The clock stands at its start, and does not wait. -/
structure Fresh (c : Clock ℝ) : Prop where
  elapsed : c.elapsed = 0
  delay : c.delay = 0
  duration : 0 ≤ c.duration

/-- A clock without delay is fresh when it starts. -/
theorem fresh_start (duration : ℝ) : (start duration 0).Fresh := by
  constructor <;> simp [start]

/-- A fresh clock stays fresh when it is capped. -/
theorem Fresh.cap {c : Clock ℝ} (h : c.Fresh) (limit : ℝ) : (c.cap limit).Fresh := by
  refine ⟨h.elapsed, h.delay, ?_⟩
  simp [Clock.cap, h.duration]

/-- A clock without duration is over at once, any other only after its duration. -/
theorem Fresh.finished_iff {c : Clock ℝ} (h : c.Fresh) {steps : List ℝ}
    (forward : ∀ x ∈ steps, 0 ≤ x) :
    (steps.foldl Clock.advance c).finished = true ↔ c.duration = 0 ∨ c.duration < steps.sum := by
  have passed := List.sum_nonneg forward
  rw [foldl_advance, Clock.finished_iff]
  by_cases instant : c.duration = 0
  · simp [instant, h.delay, h.elapsed, passed]
  · simp [instant, h.delay, h.elapsed]

end Clock

/-! ## Follows -/

namespace Follow

/-- Follows that have been built, part by part, and possibly capped on the way. -/
inductive Fresh : Follow ℝ → Prop where
  | empty (timing : Timing ℝ) : Fresh (.empty timing)
  | withMove {f : Follow ℝ} (h : Fresh f) (start stop : Point ℝ) (v : Viewport ℝ) :
      Fresh (f.withMove start stop v)
  | withTurn {f : Follow ℝ} (h : Fresh f) (start stop : ℝ) : Fresh (f.withTurn start stop)
  | withZoom {f : Follow ℝ} (h : Fresh f) (start stop : ℝ) : Fresh (f.withZoom start stop)
  | cap {f : Follow ℝ} (h : Fresh f) (limit : ℝ) : Fresh (f.cap limit)

/-- The value in which a property ends, if it is driven. -/
def target? {α : Type} (f : Follow α) : Property → Option (PropertyValue α)
  | .position => f.position.map fun t => .point t.stop
  | .angle => f.angle.map fun t => .scalar t.stop
  | .scale => f.scale.map fun t => .scalar t.stop

namespace Fresh

variable {f : Follow ℝ} {steps : List ℝ}

/-- All parts of the follow stand at their start. -/
theorem clocks (h : f.Fresh) : ∀ c ∈ f.clocks, c.Fresh := by
  have new {c : Clock ℝ} (started : ∃ duration, c = .start duration 0) : c.Fresh := by
    rcases started with ⟨duration, rfl⟩
    exact Clock.fresh_start duration
  induction h with
  | empty timing => simp [Follow.clocks, Follow.empty]
  | withMove _ start stop v ih => exact fun c hc => (mem_clocks_withMove hc).elim (ih c) new
  | withTurn _ start stop ih => exact fun c hc => (mem_clocks_withTurn hc).elim (ih c) new
  | withZoom _ start stop ih => exact fun c hc => (mem_clocks_withZoom hc).elim (ih c) new
  | cap _ limit ih =>
      intro c hc
      rw [clocks_cap] at hc
      rcases List.mem_map.mp hc with ⟨before, there, rfl⟩
      exact (ih before there).cap limit

/-- A follow takes at most as long as something when each of its clocks does. -/
theorem duration_le_iff {x : ℝ} (nonneg : 0 ≤ x) :
    f.duration ≤ x ↔ ∀ c ∈ f.clocks, c.duration ≤ x := by
  rcases f with ⟨timing, _ | _, _ | _, _ | _⟩ <;>
    simp [Follow.clocks, duration, Tween.duration, nonneg, and_assoc]

/-- A fresh follow takes no negative time. -/
theorem duration_nonneg (h : f.Fresh) : 0 ≤ f.duration := by
  cases parts : f.clocks with
  | nil =>
      rcases f with ⟨timing, _ | _, _ | _, _ | _⟩ <;> simp [Follow.clocks] at parts
      simp [duration]
  | cons c cs =>
      have hc : c ∈ f.clocks := by simp [parts]
      exact (h.clocks c hc).duration.trans (duration_le hc)

/-- The follow is not over before its duration. -/
theorem duration_le_of_finished (h : f.Fresh) (forward : ∀ x ∈ steps, 0 ≤ x)
    (ended : (steps.foldl advance f).finished = true) : f.duration ≤ steps.sum := by
  have passed := List.sum_nonneg forward
  rw [duration_le_iff passed]
  intro c hc
  rw [finished_eq, clocks_foldl_advance, List.all_map, List.all_eq_true] at ended
  rcases ((h.clocks c hc).finished_iff forward).mp (ended c hc) with instant | short
  · exact instant.le.trans passed
  · exact short.le

/-- The follow does not go on after its duration. -/
theorem le_duration_of_not_finished (h : f.Fresh) (forward : ∀ x ∈ steps, 0 ≤ x)
    (goes : (steps.foldl advance f).finished = false) : steps.sum ≤ f.duration := by
  rw [finished_eq, clocks_foldl_advance, List.all_map, List.all_eq_false] at goes
  rcases goes with ⟨c, hc, goes⟩
  rw [Function.comp_apply, (h.clocks c hc).finished_iff forward, not_or, not_lt] at goes
  exact goes.2.trans (duration_le hc)

/-- The follow shows the end of nothing that it drives. -/
theorem reading?_ne_target? (h : f.Fresh) {p : Property} (drives : f.driven.contains p = true) :
    f.reading? p ≠ f.target? p := by
  induction h with
  | empty timing => simp [Follow.empty] at drives
  | withMove _ start stop v ih =>
      unfold Follow.withMove at drives ⊢
      split_ifs at drives ⊢ with same
      · exact ih drives
      · have differ : start ≠ stop := by
          rintro rfl
          exact same (by simp [BEq.beq])
        cases p with
        | position => simpa [reading?, target?, putMove, Tween.move, Tween.ofDuration] using differ
        | angle | scale => exact ih drives
  | withTurn _ start stop ih =>
      unfold Follow.withTurn at drives ⊢
      split_ifs at drives ⊢ with same
      · exact ih drives
      · have differ : start ≠ stop := by simpa using same
        cases p with
        | angle => simpa [reading?, target?, putTurn, Tween.turn, Tween.ofDuration] using differ
        | position | scale => exact ih drives
  | withZoom _ start stop ih =>
      unfold Follow.withZoom at drives ⊢
      split_ifs at drives ⊢ with same
      · exact ih drives
      · have differ : start ≠ stop := by simpa using same
        cases p with
        | scale => simpa [reading?, target?, putZoom, Tween.zoom, Tween.ofDuration] using differ
        | position | angle => exact ih drives
  | cap _ limit ih =>
      cases p <;> simpa [reading?, target?, Follow.cap, Tween.cap, Function.comp_def] using
        ih drives

end Fresh

end Follow

end CameraMotion
