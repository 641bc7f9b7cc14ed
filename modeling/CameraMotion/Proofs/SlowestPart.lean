import CameraMotion.Proofs.Draining
import CameraMotion.Proofs.Fresh
import CameraMotion.Proofs.Progress
import CameraMotion.Follow.Calls

/-!
# The slowest part

A follow is asked for one part after another, and may be capped on the way; then time
passes in it.  Of several parts that drive the same property it keeps the last one, and a
part that leads nowhere it does not keep at all.  It is over when the slowest part that it
has kept is over, and its duration is that of this part, whatever was cut off the parts on
the way.

Main results:

- Theorem `Follow.exists_slowest`: some part takes as long as the follow.
- Theorem `Follow.Fresh.finished_run_iff`: a follow is over when its slowest part is.
- Theorem `Follow.driven_fill`: the properties of the parts that lead somewhere are those
  that are driven.
- Theorem `Follow.Keeps.foldl_call`: the last of the parts for a property is kept.
- Theorem `Follow.slowest_part`: all of that for a follow that has been filled and has run.
-/

namespace CameraMotion

/-! ## Clocks -/

/-- A clock without duration is over at once, any other only after the duration that is
left to it. -/
theorem Clock.Fresh.finished_run_iff {c : Clock ℝ} (h : c.Fresh) {steps : List (Step ℝ)}
    (forward : ∀ s ∈ steps, 0 ≤ s.seconds) :
    (c.run steps).finished = true ↔
      (c.run steps).duration = 0 ∨ (c.run steps).duration < (steps.map Step.seconds).sum := by
  have on := progresses h.duration forward
  have passed : 0 ≤ (steps.map Step.seconds).sum := List.sum_nonneg (by simpa using forward)
  rw [Clock.finished_iff, on.elapsed, on.delay, h.elapsed, h.delay]
  by_cases instant : (c.run steps).duration = 0
  · simp [instant, passed]
  · simp [instant]

namespace Follow

/-! ## Running -/

section

variable {α : Type} [Scalar α]

/-- The parts of a follow run side by side. -/
theorem run_eq (f : Follow α) (steps : List (Clock.Step α)) :
    f.run steps =
      { f with
        position := f.position.map (·.run steps)
        angle := f.angle.map (·.run steps)
        scale := f.scale.map (·.run steps)
        inStep := f.inStep.map _ _ _ } := by
  induction steps generalizing f with
  | nil => simp [run, Tween.run]
  | cons s steps ih =>
      refine (ih (f.step s)).trans ?_
      cases s <;>
        simp [step, advance, cap, Tween.run, Tween.step, Option.map_map, Function.comp_def]

/-- Each clock of a follow runs. -/
theorem clocks_run (f : Follow α) (steps : List (Clock.Step α)) :
    (f.run steps).clocks = f.clocks.map (·.run steps) := by
  rw [run_eq]
  simp [clocks, Option.map_map, Function.comp_def, Tween.clock_run, ← Option.toList_map]

end

/-- A part that is there has a clock with its duration, and one that is not takes no time.
-/
private theorem duration_or_zero {β : Type} (part : Option (Tween ℝ β)) :
    (part.map (·.duration)).getD 0 = 0 ∨
      ∃ c ∈ (part.map (·.clock)).toList, c.duration = (part.map (·.duration)).getD 0 := by
  cases part with
  | none => exact .inl rfl
  | some t => exact .inr ⟨t.clock, List.mem_singleton_self _, rfl⟩

/-- Some part takes as long as the follow, unless that is no time at all. -/
theorem exists_slowest (f : Follow ℝ) :
    f.duration = 0 ∨ ∃ c ∈ f.clocks, c.duration = f.duration := by
  have among {x : ℝ} {cs : List (Clock ℝ)} (sub : cs ⊆ f.clocks)
      (h : x = 0 ∨ ∃ c ∈ cs, c.duration = x) : x = 0 ∨ ∃ c ∈ f.clocks, c.duration = x :=
    h.imp_right fun ⟨c, hc, same⟩ => ⟨c, sub hc, same⟩
  have angle := among (by simp [clocks]) (duration_or_zero f.angle)
  have scale := among (by simp [clocks]) (duration_or_zero f.scale)
  have position := among (by simp [clocks]) (duration_or_zero f.position)
  simp only [duration, Scalar.max_eq]
  rcases max_choice (max _ _) ((f.position.map (·.duration)).getD 0) with h | h <;> rw [h]
  · rcases max_choice ((f.angle.map (·.duration)).getD 0) _ with h | h <;> rw [h]
    · exact angle
    · exact scale
  · exact position

/-- A follow is over when its slowest part is. -/
theorem Fresh.finished_run_iff {f : Follow ℝ} (h : f.Fresh) {steps : List (Clock.Step ℝ)}
    (forward : ∀ s ∈ steps, 0 ≤ s.seconds) :
    (f.run steps).finished = true ↔
      (f.run steps).duration = 0 ∨
        (f.run steps).duration < (steps.map Clock.Step.seconds).sum := by
  have part : ∀ c ∈ (f.run steps).clocks, 0 ≤ c.duration ∧ (c.finished = true ↔
      c.duration = 0 ∨ c.duration < (steps.map Clock.Step.seconds).sum) := by
    intro c hc
    rw [clocks_run] at hc
    rcases List.mem_map.mp hc with ⟨before, there, rfl⟩
    have fresh := h.clocks before there
    exact ⟨(Clock.progresses fresh.duration forward).nonneg, fresh.finished_run_iff forward⟩
  rw [finished_eq, List.all_eq_true]
  constructor
  · intro ended
    rcases exists_slowest (f.run steps) with instant | ⟨c, hc, slowest⟩
    · exact .inl instant
    · rw [← slowest]
      exact (part c hc).2.mp (ended c hc)
  · intro ended c hc
    refine (part c hc).2.mpr ?_
    rcases ended with instant | short
    · exact .inl (le_antisymm ((duration_le hc).trans_eq instant) (part c hc).1)
    · exact .inr ((duration_le hc).trans_lt short)

/-! ## Filling -/

/-- A part leads nowhere when it ends where it starts. -/
theorem Part.idle_iff {part : Part ℝ} : part.idle = true ↔ part.start = part.stop := by
  cases part with
  | move a b _ =>
      show (a.x == b.x && a.y == b.y) = true ↔ PropertyValue.point a = .point b
      rw [Bool.and_eq_true, beq_iff_eq, beq_iff_eq, PropertyValue.point.injEq, Point.ext_iff]
  | turn a b | zoom a b => simp [idle, start, stop]

section

variable {α : Type} [PlaneScalar α]

/-- A call notes down what it drives if it leads somewhere. -/
theorem contains_record (s : PropertySet) (c : Call α) (p : Property) :
    (record s c).contains p = true ↔
      s.contains p = true ∨ ∃ part, .set part = c ∧ part.property = p ∧ ¬part.idle = true := by
  cases c with
  | cap limit => simp [record]
  | set part =>
      by_cases idle : part.idle = true
      · simp [record, idle]
      · rw [record, if_neg idle, PropertySet.insert, PropertySet.contains, ByProperty.get_set]
        by_cases same : p = part.property
        · simp [same, idle]
        · simp [same, Ne.symm same]

/-- What is noted down is what some part drives that leads somewhere. -/
theorem contains_foldl_record (s : PropertySet) (calls : List (Call α)) (p : Property) :
    (calls.foldl record s).contains p = true ↔
      s.contains p = true ∨
        ∃ part, .set part ∈ calls ∧ part.property = p ∧ ¬part.idle = true := by
  induction calls generalizing s with
  | nil => simp
  | cons c calls ih =>
      rw [List.foldl_cons, ih, contains_record, or_assoc, ← exists_or]
      simp only [List.mem_cons, or_and_right]

end

/-! ## The last part for a property -/

/-- The follow keeps a part that has run for some steps. -/
def Keeps (f : Follow ℝ) (steps : List (Clock.Step ℝ)) : Part ℝ → Prop
  | .move start stop view => f.position = some ((Tween.move f.timing 0 start stop view).run steps)
  | .turn start stop => f.angle = some ((Tween.turn f.timing 0 start stop).run steps)
  | .zoom start stop => f.scale = some ((Tween.zoom f.timing 0 start stop).run steps)

variable {f : Follow ℝ} {part : Part ℝ} {before : List (Clock.Step ℝ)}

/-- A part that leads somewhere is kept when it is asked for. -/
theorem keeps_withPart (f : Follow ℝ) (moves : ¬part.idle = true) :
    (f.withPart part).Keeps [] part := by
  rw [withPart_of_moves f moves]
  cases part <;> rfl

/-- A part that is kept runs with the follow. -/
theorem Keeps.run (h : f.Keeps before part) (steps : List (Clock.Step ℝ)) :
    (f.run steps).Keeps (before ++ steps) part := by
  rw [run_eq]
  cases part <;> simp_all [Keeps, Tween.run_append]

/-- What is asked for another property, or leads nowhere, leaves the part alone. -/
theorem Keeps.withPart (h : f.Keeps before part) {other : Part ℝ}
    (beside : other.property = part.property → other.idle = true) :
    (f.withPart other).Keeps before part := by
  by_cases idle : other.idle = true
  · rwa [withPart_of_idle f idle]
  · have differ : other.property ≠ part.property := fun same => idle (beside same)
    rw [withPart_of_moves f idle]
    cases other <;> cases part <;> first | exact h | exact absurd rfl differ

/-- The last of the parts for a property is kept. -/
theorem Keeps.foldl_call (h : f.Keeps before part) {after : List (Call ℝ)}
    (last : ∀ other, .set other ∈ after → other.property = part.property → other.idle = true) :
    (after.foldl call f).Keeps (before ++ after.filterMap Call.step?) part := by
  induction after generalizing f before with
  | nil => simpa using h
  | cons c after ih =>
      have rest : ∀ other, .set other ∈ after → other.property = part.property →
          other.idle = true := fun other there => last other (List.mem_cons_of_mem c there)
      cases c with
      | cap limit =>
          have capped : (f.call (.cap limit)).Keeps (before ++ [.cap limit]) part :=
            h.run [.cap limit]
          simpa [Call.step?] using ih capped rest
      | set other => exact ih (h.withPart (last other List.mem_cons_self)) rest

/-- The value in which a property starts, if it is driven. -/
def source? {α : Type} (f : Follow α) : Property → Option (PropertyValue α)
  | .position => f.position.map fun t => .point t.start
  | .angle => f.angle.map fun t => .scalar t.start
  | .scale => f.scale.map fun t => .scalar t.start

/-- Who keeps a part goes from its start to its end. -/
theorem Keeps.ends (h : f.Keeps before part) :
    f.source? part.property = some part.start ∧ f.target? part.property = some part.stop := by
  cases part <;>
    simp only [Keeps] at h <;>
    simp [source?, target?, Part.property, h, Tween.ends_run, Part.start, Part.stop, Tween.move,
      Tween.turn, Tween.zoom, Tween.ofDuration]

/-- A follow is fresh when it has been filled. -/
theorem fresh_fill (timing : Timing ℝ) (calls : List (Call ℝ)) : (fill timing calls).Fresh := by
  induction calls using List.reverseRecOn with
  | nil => exact .empty timing
  | append_singleton calls c ih =>
      rw [fill_concat]
      cases c with
      | cap limit => exact .cap ih limit
      | set part =>
          cases part with
          | move start stop view => exact .withMove ih start stop view
          | turn start stop => exact .withTurn ih start stop
          | zoom start stop => exact .withZoom ih start stop

/-! ## The main result -/

/-- However a follow has been filled and however time then passes in it and its end is
brought forward: it is over exactly when it has no duration, or more time than that has
passed.  It drives exactly the properties for which some part leads somewhere, and those are
the ones that have been noted down; and for each of them it keeps the last such part, and
goes from the start of this part to its end. -/
theorem slowest_part (timing : Timing ℝ) (calls : List (Call ℝ)) {steps : List (Clock.Step ℝ)}
    (forward : ∀ s ∈ steps, 0 ≤ s.seconds) :
    let f := (fill timing calls).run steps
    (f.finished = true ↔
      f.duration = 0 ∨ f.duration < (steps.map Clock.Step.seconds).sum) ∧
    f.driven = calls.foldl record .empty ∧
    (∀ p, f.driven.contains p = true ↔
      ∃ part, .set part ∈ calls ∧ part.property = p ∧ part.start ≠ part.stop) ∧
    ∀ before part after, calls = before ++ .set part :: after → part.start ≠ part.stop →
      (∀ other, .set other ∈ after → other.property = part.property →
        other.start = other.stop) →
      f.Keeps (after.filterMap Call.step? ++ steps) part ∧
        f.source? part.property = some part.start ∧ f.target? part.property = some part.stop := by
  intro f
  have noted : f.driven = calls.foldl record .empty := by
    rw [driven_run, driven_fill]
  refine ⟨(fresh_fill timing calls).finished_run_iff forward, noted, fun p => ?_, ?_⟩
  · rw [noted, contains_foldl_record]
    simp [Part.idle_iff, PropertySet.empty]
  · rintro before part after rfl moves last
    rw [ne_eq, ← Part.idle_iff] at moves
    have kept : (fill timing (before ++ .set part :: after)).Keeps
        (after.filterMap Call.step?) part := by
      rw [fill, List.foldl_append, List.foldl_cons]
      exact (keeps_withPart _ moves).foldl_call fun other there same =>
        Part.idle_iff.mpr (last other there same)
    have runs := kept.run steps
    exact ⟨runs, runs.ends⟩

/-- A follow is made that moves and turns nowhere.  A fifth of a second after its start the
zoom goes on, and it is over when its end is brought forward to a tenth of a second. -/
theorem slowest_part_zoom :
    let steps : List (Clock.Step ℝ) := [.advance 0.2, .cap 0.1]
    let made : Follow ℝ := between .standard 0 0 0 0 1 2 .standard
    let f := made.run steps
    (made.run (steps.take 1)).finished = false ∧ f.finished = true ∧
      f.driven.contains .scale = true ∧ f.driven.contains .angle = false ∧
      f.source? .scale = some (.scalar 1) ∧ f.target? .scale = some (.scalar 2) := by
  intro steps made f
  let calls : List (Call ℝ) :=
    [.set (.move 0 0 .standard), .set (.turn 0 0), .set (.zoom 1 2)]
  have filled : made = fill .standard calls := between_eq_fill _ _ _ _ _ _ _ _
  have zoom : made = (empty .standard).withZoom 1 2 := by
    have still : (Part.move 0 0 .standard : Part ℝ).idle = true := Part.idle_iff.mpr rfl
    have level : (Part.turn 0 0 : Part ℝ).idle = true := Part.idle_iff.mpr rfl
    simp only [filled, fill, calls, List.foldl_cons, List.foldl_nil, call]
    rw [withPart_of_idle _ still, withPart_of_idle _ level, withPart]
  have long : (made.run (steps.take 1)).duration = 0.3 := by
    rw [zoom, Scheduler.withZoom_eq]
    norm_num [steps, run, step, advance, duration, Tween.duration, Tween.advance, Clock.advance]
  have short : f.duration = 0.1 := by
    simp only [f, zoom, Scheduler.withZoom_eq]
    norm_num [steps, run, step, advance, cap, duration, Tween.duration, Tween.advance, Tween.cap,
      Clock.advance, Clock.cap]
  have forward : ∀ s ∈ steps, 0 ≤ s.seconds := by
    norm_num [steps, Clock.Step.seconds]
  have begun : ∀ s ∈ steps.take 1, 0 ≤ s.seconds :=
    fun s hs => forward s (List.mem_of_mem_take hs)
  have first := slowest_part .standard calls begun
  have both := slowest_part .standard calls forward
  rw [← filled] at first both
  rcases both with ⟨ends, _, drives, last⟩
  have leads : (Part.zoom (1 : ℝ) 2).start ≠ (Part.zoom 1 2).stop := by
    simp [Part.start, Part.stop]
  have kept := last [_, _] (.zoom 1 2) [] rfl leads (by simp)
  refine ⟨?_, ends.mpr (.inr ?_), ?_, ?_, kept.2⟩
  · rw [← Bool.not_eq_true, first.1, long]
    norm_num [steps, Clock.Step.seconds]
  · rw [short]
    norm_num [steps, Clock.Step.seconds]
  · exact (drives _).mpr ⟨.zoom 1 2, by simp [calls], rfl, leads⟩
  · rw [← Bool.not_eq_true, drives]
    simp [calls, Part.property, Part.start, Part.stop]

end Follow

end CameraMotion
