import CameraMotion.Proofs.Punctual
import CameraMotion.Proofs.StraightWay
import CameraMotion.Scalar.Checked

/-!
# Progress

While time passes in a clock, and its end may be brought forward on the way, it gets on
and never back: its delay stays, its elapsed time grows and its duration shrinks.  All else
about its progress follows from these three.  A value that is led along the clock moves
towards its end, in steps that are taken whenever time passes.

Main results:

- Theorem `Clock.later_run`: a clock gets on.
- Theorem `Clock.Later.progress_le`: its progress never falls, also where a shorter
  duration turns into none.
- Theorem `Clock.progress_map`: it is worked out without dividing by zero.
- Theorem `Tween.Shows.exists_run`: the value goes on towards its end.
- Theorem `Tween.law_of_progress`: all of that for clocks, and for moves, turns and zooms.
-/

namespace CameraMotion

namespace Clock

/-- The same step on other numbers. -/
def Step.map {α β : Type} (f : α → β) : Step α → Step β
  | .advance x => .advance (f x)
  | .cap limit => .cap (f limit)

/-! ## Clocks get on -/

/-- The second clock is the first one at a later moment. -/
structure Later (c d : Clock ℝ) : Prop where
  delay : d.delay = c.delay
  elapsed : c.elapsed ≤ d.elapsed
  shrinks : d.duration ≤ c.duration
  duration : 0 ≤ d.duration

variable {c d : Clock ℝ} {steps : List (Step ℝ)}

/-- A clock has got on by nothing from itself. -/
theorem Later.refl (nonneg : 0 ≤ c.duration) : c.Later c :=
  ⟨rfl, le_rfl, le_rfl, nonneg⟩

/-- A clock gets on from where it got on before. -/
theorem Later.trans {e : Clock ℝ} (h : c.Later d) (h' : d.Later e) : c.Later e :=
  ⟨h'.delay.trans h.delay, h.elapsed.trans h'.elapsed, h'.shrinks.trans h.shrinks, h'.duration⟩

/-- Every step that does not run backwards gets a clock on. -/
theorem later_step (nonneg : 0 ≤ c.duration) {s : Step ℝ} (forward : 0 ≤ s.seconds) :
    c.Later (c.step s) := by
  cases s with
  | advance x => exact ⟨rfl, le_add_of_nonneg_right forward, le_rfl, nonneg⟩
  | cap limit =>
      refine ⟨rfl, le_rfl, ?_, ?_⟩ <;> simp only [step, cap, Scalar.min_eq, Scalar.max_eq]
      · exact min_le_left _ _
      · exact le_min nonneg (le_max_right _ _)

/-- A clock gets on. -/
theorem later_run (nonneg : 0 ≤ c.duration) (forward : ∀ s ∈ steps, 0 ≤ s.seconds) :
    c.Later (c.run steps) := by
  induction steps generalizing c with
  | nil => exact .refl nonneg
  | cons s steps ih =>
      have first := later_step nonneg (forward s List.mem_cons_self)
      exact first.trans (ih first.duration fun r hr => forward r (List.mem_cons_of_mem _ hr))

/-- The elapsed time grows by the time that passes. -/
theorem elapsed_run (c : Clock ℝ) (steps : List (Step ℝ)) :
    (c.run steps).elapsed = c.elapsed + (steps.map Step.seconds).sum := by
  induction steps generalizing c with
  | nil => simp [run]
  | cons s steps ih =>
      have first : (c.step s).elapsed = c.elapsed + s.seconds := by
        cases s with
        | advance x => rfl
        | cap limit => exact (add_zero c.elapsed).symm
      rw [List.map_cons, List.sum_cons, ← add_assoc, ← first]
      exact ih (c.step s)

/-- No clock starts with a negative duration. -/
theorem duration_start_nonneg (duration delay : ℝ) : 0 ≤ (start duration delay).duration := by
  simp [start]

/-! ## Progress -/

/-- A clock that is over is all the way there. -/
theorem progress_of_finished (ended : c.finished = true) : c.progress = 1 := by
  rw [progress, if_pos ended]

/-- Until the delay is over there is no progress. -/
theorem progress_of_elapsed_lt (nonneg : 0 ≤ c.duration) (waits : c.elapsed < c.delay) :
    c.progress = 0 := by
  have goes : ¬c.finished = true := by
    rw [finished_iff]
    split <;> linarith
  rw [progress, if_neg goes, Scalar.max_eq, max_eq_right (by linarith), zero_div, ite_self]

/-- A clock with a duration that is not over has gone the share of its duration that has
passed since its delay. -/
theorem progress_of_not_finished (goes : ¬c.finished = true) (long : c.duration ≠ 0) :
    c.progress = max (c.elapsed - c.delay) 0 / c.duration := by
  rw [progress, if_neg goes, if_neg (by simpa using long), Scalar.max_eq]

/-- Progress is never below zero and never above one. -/
theorem progress_mem_Icc (nonneg : 0 ≤ c.duration) : c.progress ∈ Set.Icc (0 : ℝ) 1 := by
  by_cases ended : c.finished = true
  · simp [progress_of_finished ended]
  · by_cases instant : c.duration = 0
    · rw [finished_iff, if_pos instant, not_le] at ended
      simp [progress_of_elapsed_lt nonneg ended]
    · rw [progress_of_not_finished ended instant]
      rw [finished_iff, if_neg instant, not_lt] at ended
      have positive : 0 < c.duration := lt_of_le_of_ne nonneg (Ne.symm instant)
      refine ⟨by positivity, (div_le_one positive).mpr (max_le ?_ nonneg)⟩
      linarith

namespace Later

/-- What is over stays over. -/
theorem finished (h : c.Later d) (ended : c.finished = true) : d.finished = true := by
  have elapsed := h.elapsed
  have shrinks := h.shrinks
  have nonneg := h.duration
  rw [finished_iff] at ended ⊢
  rw [h.delay]
  -- Another test counts once the duration has shrunk to nothing.
  by_cases instant : d.duration = 0
  · rw [if_pos instant]
    split_ifs at ended <;> linarith
  · have positive : 0 < d.duration := lt_of_le_of_ne nonneg (Ne.symm instant)
    rw [if_neg (positive.trans_le shrinks).ne'] at ended
    rw [if_neg instant]
    linarith

/-- Progress never falls. -/
theorem progress_le (h : c.Later d) : c.progress ≤ d.progress := by
  have start : 0 ≤ c.duration := h.duration.trans h.shrinks
  by_cases ended : d.finished = true
  · rw [progress_of_finished ended]
    exact (progress_mem_Icc start).2
  · have goes : ¬c.finished = true := fun past => ended (h.finished past)
    by_cases instant : d.duration = 0
    · rw [finished_iff, if_pos instant, not_le, h.delay] at ended
      rw [progress_of_elapsed_lt start (lt_of_le_of_lt h.elapsed ended)]
      exact (progress_mem_Icc h.duration).1
    · have positive : 0 < d.duration := lt_of_le_of_ne h.duration (Ne.symm instant)
      rw [progress_of_not_finished goes (positive.trans_le h.shrinks).ne',
        progress_of_not_finished ended instant, h.delay]
      have passed : max (c.elapsed - c.delay) 0 ≤ max (d.elapsed - c.delay) 0 :=
        max_le_max_right 0 (sub_le_sub_right h.elapsed _)
      exact div_le_div₀ (le_max_right _ _) passed positive h.shrinks

end Later

/-! ## Without division by zero -/

/-- The same clock in other numbers. -/
def map {α β : Type} (f : α → β) (c : Clock α) : Clock β :=
  ⟨f c.elapsed, f c.duration, f c.delay⟩

section

open Checked (number)

variable {guess : Bool}

/-- A step of a clock is worked out without dividing. -/
theorem map_step (c : Clock ℝ) (s : Step ℝ) :
    ((c.step s).map number : Clock (Checked guess)) = (c.map number).step (s.map number) := by
  cases s <;> simp [step, Step.map, map, advance, cap]

/-- Several steps of a clock are worked out without dividing. -/
theorem map_run (c : Clock ℝ) (steps : List (Step ℝ)) :
    ((c.run steps).map number : Clock (Checked guess)) =
      (c.map number).run (steps.map (Step.map number)) := by
  induction steps generalizing c with
  | nil => rfl
  | cons s steps ih =>
      refine (ih (c.step s)).trans ?_
      rw [map_step]
      rfl

/-- A clock is started without dividing. -/
theorem map_start (duration delay : ℝ) :
    ((start duration delay).map number : Clock (Checked guess)) =
      start (number duration) (number delay) := by
  simp [start, map]

/-- Whether a clock is over is found out without dividing. -/
theorem finished_map (c : Clock ℝ) :
    (c.map number : Clock (Checked guess)).finished = c.finished := by
  simp [finished, map]

/-- Progress is worked out without dividing by zero. -/
theorem progress_map (c : Clock ℝ) :
    (c.map number : Clock (Checked guess)).progress = number c.progress := by
  rw [progress, progress, finished_map]
  by_cases ended : c.finished = true
  · simp [ended]
  · by_cases instant : c.duration = 0
    · simp [ended, instant, map]
    · simp [ended, instant, map]

end

/-! ## The law of progress -/

/-- How a clock gets on in the course of some steps. -/
structure Progresses (first : Clock ℝ) (steps : List (Step ℝ)) : Prop where
  /-- The time that passes adds up, and the delay stays. -/
  elapsed : (first.run steps).elapsed = first.elapsed + (steps.map Step.seconds).sum
  delay : (first.run steps).delay = first.delay
  /-- Progress is a share of the whole. -/
  share : (first.run steps).progress ∈ Set.Icc (0 : ℝ) 1
  /-- There is none until the delay is over. -/
  waits : (first.run steps).elapsed < (first.run steps).delay → (first.run steps).progress = 0
  /-- There is nothing left to do at the end. -/
  whole : (first.run steps).finished = true → (first.run steps).progress = 1
  /-- Progress never falls. -/
  grows : ∀ before, before <+: steps → (first.run before).progress ≤ (first.run steps).progress
  /-- What is over stays over. -/
  stays : ∀ before, before <+: steps → (first.run before).finished = true →
    (first.run steps).finished = true
  /-- The duration never grows, and is never negative. -/
  shrinks : ∀ before, before <+: steps →
    (first.run steps).duration ≤ (first.run before).duration
  nonneg : 0 ≤ (first.run steps).duration
  /-- Progress is worked out without dividing by zero. -/
  defined : ∀ guess, ((first.map .number : Clock (Checked guess)).run
    (steps.map (.map .number))).progress = .number (first.run steps).progress

/-- A clock without negative duration gets on by every run whose steps do not run backwards.
-/
theorem progresses (nonneg : 0 ≤ c.duration) (forward : ∀ s ∈ steps, 0 ≤ s.seconds) :
    c.Progresses steps := by
  have later := later_run nonneg forward
  have since : ∀ before, before <+: steps → (c.run before).Later (c.run steps) := by
    rintro before ⟨after, rfl⟩
    rw [run_append]
    exact later_run (later_run nonneg fun s hs => forward s (List.mem_append_left _ hs)).duration
      fun s hs => forward s (List.mem_append_right _ hs)
  exact
    { elapsed := elapsed_run c steps
      delay := later.delay
      share := progress_mem_Icc later.duration
      waits := progress_of_elapsed_lt later.duration
      whole := progress_of_finished
      grows := fun before h => (since before h).progress_le
      stays := fun before h => (since before h).finished
      shrinks := fun before h => (since before h).shrinks
      nonneg := later.duration
      defined := fun guess => by rw [← map_run, progress_map] }

end Clock

namespace Tween

open Lerp (Between)

variable {β : Type}

/-! ## Values on their way -/

section

variable {α : Type} [Scalar α] [Lerp α β]

/-- A step of a tween is one of its clock. -/
theorem clock_step (t : Tween α β) (s : Clock.Step α) : (t.step s).clock = t.clock.step s := by
  cases s <;> rfl

/-- The clock of a tween runs with it. -/
theorem clock_run (t : Tween α β) (steps : List (Clock.Step α)) :
    (t.run steps).clock = t.clock.run steps := by
  induction steps generalizing t with
  | nil => rfl
  | cons s steps ih => exact (ih (t.step s)).trans (by rw [clock_step]; rfl)

/-- The endpoints stay. -/
theorem ends_run (t : Tween α β) (steps : List (Clock.Step α)) :
    (t.run steps).start = t.start ∧ (t.run steps).stop = t.stop := by
  induction steps generalizing t with
  | nil => exact ⟨rfl, rfl⟩
  | cons s steps ih => cases s <;> exact ih _

/-- Right after time has passed a tween shows the value that belongs to its progress. -/
theorem current_run_advance (t : Tween α β) (before : List (Clock.Step α)) (x : α) :
    (t.run (before ++ [.advance x])).current =
      lerp t.start t.stop (t.run (before ++ [.advance x])).clock.progress := by
  rw [run_append, ← (ends_run t before).1, ← (ends_run t before).2]
  rfl

end

variable [Lerp ℝ β]

/-- The value shown belongs to a share of the way that is behind. -/
structure Shows (t : Tween ℝ β) (share : ℝ) : Prop where
  current : t.current = lerp t.start t.stop share
  nonneg : 0 ≤ share
  reached : share ≤ t.clock.progress

variable {t : Tween ℝ β} {share : ℝ} {steps : List (Clock.Step ℝ)}

/-- When time passes the value shown catches up with the clock. -/
theorem Shows.exists_step (h : t.Shows share) (nonneg : 0 ≤ t.clock.duration)
    {s : Clock.Step ℝ} (forward : 0 ≤ s.seconds) :
    ∃ more, share ≤ more ∧ (t.step s).Shows more := by
  have further := h.reached.trans (Clock.later_step nonneg forward).progress_le
  rw [← clock_step] at further
  cases s with
  | advance x => exact ⟨_, further, rfl, h.nonneg.trans further, le_rfl⟩
  | cap limit => exact ⟨share, le_rfl, h.current, h.nonneg, further⟩

/-- The value goes on towards its end. -/
theorem Shows.exists_run (h : t.Shows share) (nonneg : 0 ≤ t.clock.duration)
    (forward : ∀ s ∈ steps, 0 ≤ s.seconds) :
    ∃ more, share ≤ more ∧ (t.run steps).Shows more := by
  induction steps generalizing t share with
  | nil => exact ⟨share, le_rfl, h⟩
  | cons s steps ih =>
      have now := forward s List.mem_cons_self
      rcases h.exists_step nonneg now with ⟨more, further, h⟩
      have nonneg : 0 ≤ (t.step s).clock.duration := by
        rw [clock_step]
        exact (Clock.later_step nonneg now).duration
      rcases ih h nonneg fun r hr => forward r (List.mem_cons_of_mem _ hr) with ⟨most, on, h⟩
      exact ⟨most, further.trans on, h⟩

variable [LawfulLerp β]

/-- A tween that is over once time has passed in it shows its stop. -/
theorem current_advance {seconds : ℝ} (ended : (t.advance seconds).finished = true) :
    (t.advance seconds).current = t.stop := by
  have whole : (t.clock.advance seconds).progress = 1 := if_pos ended
  show lerp t.start t.stop (t.clock.advance seconds).progress = t.stop
  rw [whole, LawfulLerp.lerp_one]

/-- A tween at its start shows its start. -/
theorem shows_ofDuration (duration delay : ℝ) (start stop : β) :
    (ofDuration duration delay start stop).Shows 0 :=
  ⟨(LawfulLerp.lerp_zero start stop).symm, le_rfl,
    (Clock.progress_mem_Icc (Clock.duration_start_nonneg duration delay)).1⟩

/-- How a tween gets on in the course of some steps. -/
structure Progresses (first : Tween ℝ β) (steps : List (Clock.Step ℝ)) : Prop where
  /-- It has a clock that gets on, and its endpoints stay. -/
  clock : (first.run steps).clock = first.clock.run steps
  timed : first.clock.Progresses steps
  ends : (first.run steps).start = first.start ∧ (first.run steps).stop = first.stop
  /-- Right after time has passed, the value belongs to the progress of the clock. -/
  shown : ∀ before x, steps = before ++ [.advance x] →
    (first.run steps).current = lerp first.start first.stop (first.run steps).clock.progress
  /-- The value lies between start and stop. -/
  between : Between first.start (first.run steps).current first.stop
  /-- It never moves backwards: a later value lies between an earlier one and the stop. -/
  onward : ∀ before, before <+: steps →
    Between (first.run before).current (first.run steps).current first.stop
  /-- When it is over, the next time that passes brings the value to the stop. -/
  arrives : ∀ before x, steps = before ++ [.advance x] → (first.run steps).finished = true →
    (first.run steps).current = first.stop

/-- A tween gets on from its start by every run whose steps do not run backwards. -/
theorem progresses_ofDuration (duration delay : ℝ) (start stop : β)
    (forward : ∀ s ∈ steps, 0 ≤ s.seconds) :
    (ofDuration duration delay start stop).Progresses steps := by
  generalize starts : ofDuration duration delay start stop = first
  have nonneg : 0 ≤ first.clock.duration := by
    rw [← starts]
    exact Clock.duration_start_nonneg duration delay
  have timed := Clock.progresses nonneg forward
  have onward : ∀ before, before <+: steps →
      Between (first.run before).current (first.run steps).current first.stop := by
    rintro before ⟨after, rfl⟩
    have h : first.Shows 0 := starts ▸ shows_ofDuration duration delay start stop
    have earlier : ∀ s ∈ before, 0 ≤ s.seconds :=
      fun s hs => forward s (List.mem_append_left _ hs)
    rcases h.exists_run nonneg earlier with ⟨share, _, h⟩
    have nonneg : 0 ≤ (first.run before).clock.duration := by
      rw [clock_run]
      exact (Clock.progresses nonneg earlier).nonneg
    rcases h.exists_run nonneg fun s hs => forward s (List.mem_append_right _ hs) with
      ⟨more, further, h'⟩
    have whole := timed.share.2
    rw [← clock_run, run_append] at whole
    rw [run_append, h.current, h'.current, (ends_run _ after).1, (ends_run _ after).2,
      (ends_run first before).1, (ends_run first before).2]
    exact Lerp.between_lerp_lerp further (h'.reached.trans whole)
  refine
    { clock := clock_run first steps
      timed := timed
      ends := ends_run first steps
      shown := ?_
      between := ?_
      onward := onward
      arrives := ?_ }
  · rintro before x rfl
    exact current_run_advance first before x
  · have begins := onward [] (List.nil_prefix)
    rwa [show (first.run []).current = first.start by rw [← starts]; rfl] at begins
  · rintro before x rfl ended
    rw [run_append] at ended ⊢
    rw [← (ends_run first before).2]
    exact current_advance ended

/-- In the course of any steps a clock gets on, whatever duration and delay it has been
given, and so do moves, turns and zooms. -/
theorem law_of_progress {steps : List (Clock.Step ℝ)} (forward : ∀ s ∈ steps, 0 ≤ s.seconds) :
    (∀ duration delay, (Clock.start duration delay).Progresses steps) ∧
    (∀ timing delay start stop view,
      let t := Tween.move timing delay start stop view
      t.Progresses steps ∧ (t.run steps).current.x ∈ Set.uIcc start.x stop.x ∧
        (t.run steps).current.y ∈ Set.uIcc start.y stop.y) ∧
    (∀ timing delay start stop,
      let t := Tween.turn timing delay start stop
      t.Progresses steps ∧ (t.run steps).current ∈ Set.uIcc start stop) ∧
    ∀ timing delay start stop,
      let t := Tween.zoom timing delay start stop
      t.Progresses steps ∧ (t.run steps).current ∈ Set.uIcc start stop := by
  refine ⟨fun duration delay => ?_, fun timing delay start stop view => ?_,
    fun timing delay start stop => ?_, fun timing delay start stop => ?_⟩
  · exact Clock.progresses (Clock.duration_start_nonneg duration delay) forward
  · have h := progresses_ofDuration (timing.moveDuration start stop view) delay start stop forward
    exact ⟨h, Point.between_coordinates h.between⟩
  · have h := progresses_ofDuration (timing.turnDuration start stop) delay start stop forward
    exact ⟨h, Scalar.between_iff.mp h.between⟩
  · have h := progresses_ofDuration (timing.zoomDuration start stop) delay start stop forward
    exact ⟨h, Scalar.between_iff.mp h.between⟩

/-- A zoom to half the scale that begins after a tenth of a second. -/
noncomputable def lateZoom : Tween ℝ ℝ :=
  .zoom .standard 0.1 1 0.5

/-- The clock of the late zoom, worked out. -/
private theorem clock_lateZoom : lateZoom.clock = ⟨0, 0.3, 0.1⟩ := by
  ext <;> norm_num [lateZoom, Tween.zoom, ofDuration, Clock.start, Timing.zoomDuration,
    Timing.zoomRatio, Timing.speedDuration, Timing.negligible, Timing.standard]

/-- A quarter of a second after its start the zoom is half done.  A limit of nothing brings
it to its end, and it shows so the next time, even if no time passes. -/
theorem law_of_progress_lateZoom :
    let steps : List (Clock.Step ℝ) := [.advance 0.25, .cap (-1), .advance 0]
    (∀ s ∈ steps, 0 ≤ s.seconds) ∧
      (lateZoom.run (steps.take 1)).current = 0.75 ∧
      (lateZoom.run (steps.take 2)).clock.progress = 1 ∧
      (lateZoom.run (steps.take 2)).current = 0.75 ∧ (lateZoom.run steps).current = 0.5 := by
  intro steps
  have forward : ∀ s ∈ steps, 0 ≤ s.seconds := by
    simp [steps, Clock.Step.seconds]
    norm_num
  have begun : ∀ s ∈ steps.take 1, 0 ≤ s.seconds :=
    fun s hs => forward s (List.mem_of_mem_take hs)
  have half : (lateZoom.clock.run (steps.take 1)).progress = 1 / 2 := by
    rw [clock_lateZoom]
    norm_num [steps, Clock.run, Clock.step, Clock.advance, Clock.progress, Clock.finished]
  have past : (lateZoom.clock.run (steps.take 2)).finished = true := by
    rw [clock_lateZoom]
    norm_num [steps, Clock.run, Clock.step, Clock.advance, Clock.cap, Clock.finished]
  have first := ((law_of_progress begun).2.2.2 .standard 0.1 1 0.5).1
  have last := ((law_of_progress forward).2.2.2 .standard 0.1 1 0.5).1
  have shown : (lateZoom.run (steps.take 1)).current = 0.75 := by
    refine (first.shown [] 0.25 rfl).trans ?_
    rw [first.clock]
    exact (congrArg (Scalar.lerp (1 : ℝ) 0.5) half).trans (by norm_num [Scalar.lerp])
  refine ⟨forward, shown, ?_, shown, ?_⟩
  · rw [clock_run]
    exact Clock.progress_of_finished past
  · refine last.arrives (steps.take 2) 0 rfl ?_
    refine (congrArg Clock.finished last.clock).trans ?_
    exact last.timed.stays (steps.take 2) (List.take_prefix 2 steps) past

end Tween

end CameraMotion
