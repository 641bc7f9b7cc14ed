import CameraMotion.Proofs.Draining
import CameraMotion.Proofs.Fresh
import CameraMotion.Proofs.Contracts
import CameraMotion.Proofs.Progress
import CameraMotion.Proofs.Turns

/-!
# Landing

What a follow shows when it is told of its finish, and so what is kept for it.  It works
its values out anew only while time passes, so whether it has come to its end depends on
whether time has passed in it by then.  It has, wherever somebody lets time pass in an
animation and then asks whether it is over.  Only a sequence that goes over to its last
stage is asked right away: when that stage needs no time it is over at its start, and
shows what it showed there.

Main results:

- Theorem `Follow.landed_advance`: a follow that is over once time has passed in it shows
  the end of everything that it drives.
- Theorem `Animation.finishes_of_told`: a leaf is told of its finish when it is over once
  time has passed in it, or when it is skipped.
- Theorem `Animation.skips_of_skips_advanced`: nobody is skipped who was not to be skipped
  from the beginning.
- Theorem `Scheduler.run_landed`: what follows show at their finish in the course of a run,
  and what is kept for them.
-/

namespace CameraMotion

/-! ## Follows -/

namespace Follow

/-- The follow shows the end of everything that it drives. -/
def Landed {α : Type} (f : Follow α) : Prop :=
  ∀ p, f.reading? p = f.target? p

/-- A follow that is over once time has passed in it has landed. -/
theorem landed_advance {f : Follow ℝ} {seconds : ℝ}
    (ended : (f.advance seconds).finished = true) : (f.advance seconds).Landed := by
  rcases f with ⟨timing, position, angle, scale⟩
  simp only [finished, advance, Bool.and_eq_true, Option.all_eq_true_iff_get,
    Option.isSome_map, Option.get_map] at ended
  rcases ended with ⟨⟨turned, zoomed⟩, moved⟩
  intro p
  cases p with
  | position =>
      cases position with
      | none => rfl
      | some t =>
          exact congrArg (fun q => some (PropertyValue.point q))
            (Tween.current_advance (moved rfl))
  | angle =>
      cases angle with
      | none => rfl
      | some t =>
          exact congrArg (fun x => some (PropertyValue.scalar x))
            (Tween.current_advance (turned rfl))
  | scale =>
      cases scale with
      | none => rfl
      | some t =>
          exact congrArg (fun x => some (PropertyValue.scalar x))
            (Tween.current_advance (zoomed rfl))

end Follow

/-! ## Animations -/

namespace Animation

variable {α μ ι : Type} [Scalar α] [Motion α μ] {seconds : α} {l : ι × Leaf α μ}

/-- The leaf runs in a last stage, behind another one, that is over before its turn
comes. -/
inductive Skips (l : ι × Leaf α μ) : Animation α μ ι → Prop where
  | part {declared : Declarations} {members : List (Animation α μ ι)} {m : Animation α μ ι}
      (hm : m ∈ members) (h : Skips l m) : Skips l (.parallel declared members)
  | head {head : Animation α μ ι} {rest : List (Animation α μ ι)} (h : Skips l head) :
      Skips l (.sequence (head :: rest))
  | tail {head : Animation α μ ι} {rest : List (Animation α μ ι)}
      (h : Skips l (.sequence rest)) : Skips l (.sequence (head :: rest))
  | last {head last : Animation α μ ι} (ended : last.finished = true) (hl : l ∈ last.running) :
      Skips l (.sequence [head, last])

/-- Nobody is skipped who was not to be skipped before. -/
theorem skips_of_skips_advanced {a : Animation α μ ι} (h : (a.advanced seconds).Skips l) :
    a.Skips l := by
  induction a with
  | leaf listener body =>
      rw [advanced_leaf] at h
      cases h
  | parallel declared members ih =>
      rw [advanced_parallel] at h
      cases h with
      | part hm h =>
          rcases mem_stayers.mp hm with ⟨⟨m₀, hm₀, rfl⟩, _⟩
          exact .part hm₀ (ih m₀ hm₀ h)
  | sequence stages ih =>
      rcases stages with _ | ⟨head, _ | ⟨next, later⟩⟩
      · rw [advanced_sequence_nil] at h
        cases h
      · rw [advanced_sequence_single] at h
        cases h with
        | head h => exact .head (ih head (by simp) h)
        | tail h => cases h
      · rw [advanced_sequence_cons_cons] at h
        split at h
        · exact .tail h
        · cases h with
          | head h => exact .head (ih head (by simp) h)
          | tail h => exact .tail h
          | last ended hl => exact .last ended hl

/-- The leaf is over at the end of the step: it runs and time has passed in it, or it is
skipped. -/
inductive Finishes (seconds : α) (l : ι × Leaf α μ) (a : Animation α μ ι) : Prop where
  | passed {body : Leaf α μ} (runs : (l.1, body) ∈ a.running) (now : l.2 = body.advance seconds)
      (ended : l.2.finished = true)
  | skipped (h : a.Skips l)

/-- Who finishes in a member of a parallel finishes in the parallel. -/
theorem Finishes.part {declared : Declarations} {members : List (Animation α μ ι)}
    {m : Animation α μ ι} (h : m.Finishes seconds l) (hm : m ∈ members) :
    (Animation.parallel declared members).Finishes seconds l := by
  cases h with
  | passed runs now ended =>
      refine .passed ?_ now ended
      rw [running_parallel]
      exact List.mem_flatMap.mpr ⟨m, hm, runs⟩
  | skipped h => exact .skipped (.part hm h)

/-- Who finishes in the running stage of a sequence finishes in the sequence. -/
theorem Finishes.head {head : Animation α μ ι} (h : head.Finishes seconds l)
    (rest : List (Animation α μ ι)) :
    (Animation.sequence (head :: rest)).Finishes seconds l := by
  cases h with
  | passed runs now ended =>
      refine .passed ?_ now ended
      rw [running_sequence_cons]
      exact runs
  | skipped h => exact .skipped (.head h)

/-- Who runs in an animation that is over once time has passed in it, is over. -/
theorem finishes_of_mem_running {a : Animation α μ ι}
    (ended : (a.advanced seconds).finished = true) (hl : l ∈ (a.advanced seconds).running) :
    a.Finishes seconds l := by
  induction a with
  | leaf listener body =>
      rw [advanced_leaf] at ended hl
      obtain rfl : l = (listener, body.advance seconds) := by simpa using hl
      exact .passed (by simp) rfl ended
  | parallel declared members ih =>
      rw [advanced_parallel, finished_parallel, List.isEmpty_iff] at ended
      simp [ended] at hl
  | sequence stages ih =>
      rcases stages with _ | ⟨head, _ | ⟨next, later⟩⟩
      · simp at hl
      · rw [advanced_sequence_single, finished_sequence_single] at ended
        rw [advanced_sequence_single, running_sequence_cons] at hl
        exact (ih head (by simp) ended hl).head []
      · rw [advanced_sequence_cons_cons] at ended hl
        split at ended
        · next past =>
            rw [if_pos past, running_sequence_cons] at hl
            -- The stage that the sequence goes over to is asked at its start.
            cases later with
            | nil => exact .skipped (.last ended hl)
            | cons _ _ => simp at ended
        · simp at ended

variable {a : Animation α μ ι} {listener : ι} {body : Leaf α μ}

/-- Who is told of its finish in the turn of a part finishes there. -/
theorem finishes_of_mem_partLog
    (passes : .told .finish listener body ∈ (a.advance seconds).log →
      a.Finishes seconds (listener, body))
    (told : .told .finish listener body ∈ a.partLog seconds) :
    a.Finishes seconds (listener, body) := by
  rcases List.mem_append.mp told with told | told
  · exact passes told
  · split at told
    · next ended =>
        rcases (mem_log_tell fun _ => ended).mp told with ⟨l, runs, same⟩
        cases same
        exact finishes_of_mem_running ended runs
    · simp at told

/-- While time passes in an animation, a leaf is told of its finish only when it is over,
because time has passed in it or because it is skipped. -/
theorem finishes_of_told (told : .told .finish listener body ∈ (a.advance seconds).log) :
    a.Finishes seconds (listener, body) := by
  induction a with
  | leaf listener' body' => simp [advance] at told
  | parallel declared members ih =>
      rw [log_advance_parallel] at told
      rcases List.mem_flatMap.mp told with ⟨m, hm, told⟩
      exact (finishes_of_mem_partLog (ih m hm) told).part hm
  | sequence stages ih =>
      rcases stages with _ | ⟨head, _ | ⟨next, later⟩⟩
      · simp [advance, advanceStages] at told
      · rw [log_advance_sequence_single] at told
        exact (ih head (by simp) told).head []
      · rw [log_advance_sequence_cons_cons] at told
        rcases List.mem_append.mp told with told | told
        · exact (finishes_of_mem_partLog (ih head (by simp)) told).head _
        · split at told
          · rcases (mem_log_tell (by simp)).mp told with ⟨_, _, same⟩
            cases same
          · simp at told

/-- What an animation that is over leaves behind when a follow runs in it, is what the
follow shows. -/
theorem reading?_of_bequest {f : Follow α} (ended : a.finished = true)
    (runs : (listener, .follow f) ∈ a.running) {c : Channel} {v : PropertyValue α}
    (left : a.bequest c = some v) : f.reading? c.property = some v := by
  induction a with
  | leaf listener' body =>
      obtain ⟨rfl, rfl⟩ : listener = listener' ∧ .follow f = body := by simpa using runs
      rcases bequest_eq_some_iff.mp left with ⟨⟨declared, _⟩, rfl⟩
      have driven : f.driven.contains c.property = true := by
        rcases c with ⟨o, p⟩
        obtain rfl : o = .mapPlane :=
          Declarations.touches_single.mp (Declarations.touches_of_declares declared)
        exact declared
      rcases Option.isSome_iff_exists.mp (Follow.reading?_isSome_iff.mpr driven) with ⟨v, shows⟩
      simp [reading, Leaf.reading, shows]
  | parallel declared members ih =>
      rw [finished_parallel, List.isEmpty_iff] at ended
      simp [ended] at runs
  | sequence stages ih =>
      rcases stages with _ | ⟨head, _ | ⟨next, later⟩⟩
      · simp at runs
      · rw [finished_sequence_single] at ended
        rw [running_sequence_cons] at runs
        exact ih head (by simp) ended runs left
      · simp at ended

end Animation

/-! ## Runs -/

/-- A hook that is logged is noticed. -/
theorem Logged.mem_moments_of_told {α μ ι β : Type} {m : Logged (Event α μ ι) β} {hook : Hook}
    {listener : ι} {body : Leaf α μ} (told : .told hook listener body ∈ m.log) :
    (listener, .told hook) ∈ m.moments :=
  List.mem_filterMap.mpr ⟨_, told, rfl⟩

namespace Scheduler

variable {α μ ι : Type} [Scalar α] [Motion α μ] {s : Scheduler α μ ι}
  {ops : List (Operation α μ ι)} {listener : ι} {body : Leaf α μ} {l : ι × Leaf α μ}

/-- A leaf is told of its finish only while time passes, in the turn of a running member
at whose end it is over. -/
theorem finishes_of_told_step {op : Operation α μ ι}
    (told : .told .finish listener body ∈ (s.step op).log) :
    ∃ seconds, op = .advance seconds ∧
      ∃ m ∈ s.head, m.animation.Finishes seconds (listener, body) := by
  have noticed := Logged.mem_moments_of_told told
  cases op with
  | advance seconds =>
      rw [step, log_advance] at told
      rcases List.mem_flatMap.mp told with ⟨m, hm, told⟩
      refine ⟨seconds, rfl, m, hm, Animation.finishes_of_mem_partLog Animation.finishes_of_told ?_⟩
      rw [Animation.turnLog] at told
      split at told
      · next ended =>
          have quiet : .told .finish listener body ∉ (m.animation.advanced seconds).snapshot.log :=
            fun told => by simpa using Logged.mem_moments_of_told told
          simpa [Animation.partLog, ended, quiet] using told
      · next goes => simpa [Animation.partLog, goes] using told
  | add a force =>
      -- Those who are removed are interrupted, and the new one is started.
      have hooks : ∀ (hook : Hook) (b : Animation α μ ι), hook ≠ .finish →
          (listener, Moment.told .finish) ∉ (b.tell hook).moments := by
        intro hook b other noticed
        rw [b.moments_tell hook fun same => absurd same other] at noticed
        simp [other] at noticed
      rw [step, moments_add] at noticed
      rcases List.mem_append.mp noticed with noticed | noticed
      · rcases List.mem_flatMap.mp noticed with ⟨m, _, noticed⟩
        exact absurd noticed (hooks .interrupt m.animation (by simp))
      · exact absurd noticed (hooks .start a (by simp))
  | read c fallback => simp [step] at noticed
  | rect v => simp [step] at noticed
  | save a => simp [step] at noticed
  | clear => simp [step] at noticed

/-- Whoever runs in a member that is over once time has passed, is told of the finish. -/
theorem told_of_mem_leavers {seconds : α} {m : Member α μ ι}
    (hm : m ∈ Group.leavers seconds s.head) (hl : l ∈ m.animation.running) :
    .told .finish l.1 l.2 ∈ (s.advance seconds).log := by
  rcases Group.mem_leavers.mp hm with ⟨⟨m₀, hm₀, rfl⟩, past⟩
  have ended : (m₀.animation.advanced seconds).finished = true := past
  rw [log_advance]
  refine List.mem_flatMap.mpr ⟨m₀, hm₀, List.mem_append_right _ ?_⟩
  rw [if_pos ended]
  refine List.mem_append_left _ ?_
  exact (Animation.mem_log_tell fun _ => ended).mpr ⟨l, hl, rfl⟩

/-- Who is to be skipped was so when it was inserted. -/
theorem skips_run : ∀ m ∈ (run ops).value.members, m.animation.Skips l →
    ∃ a ∈ Operation.added ops, a.Skips l := by
  refine run_invariant
    (P := fun s => ∀ m ∈ s.members, m.animation.Skips l → ∃ a ∈ Operation.added ops, a.Skips l)
    (Q := fun op => op ∈ ops) (by simp [members, empty]) (fun s op hop h m hm skips => ?_) ops
    fun op hop => hop
  rcases origin_of_mem_step hm with hm | ⟨seconds, rfl, n, hn, rfl⟩ | ⟨a, force, rfl, rfl⟩
  · exact h m hm skips
  · exact h n (mem_members_of_mem_head hn) (Animation.skips_of_skips_advanced skips)
  · exact ⟨a, List.mem_filterMap.mpr ⟨_, hop, rfl⟩, skips⟩

/-- A leaf that is told of its finish in a run is over because time has passed in it, or
it was inserted to be skipped. -/
theorem passed_or_skipped_of_told (told : .told .finish listener body ∈ (run ops).log) :
    (∃ before seconds, body = Leaf.advance before seconds ∧ body.finished = true) ∨
      ∃ a ∈ Operation.added ops, a.Skips (listener, body) := by
  induction ops using List.reverseRecOn with
  | nil => simp at told
  | append_singleton ops op ih =>
      rw [run_concat, Logged.log_bind] at told
      rw [Operation.added_append]
      rcases List.mem_append.mp told with told | told
      · refine (ih told).imp_right fun ⟨a, ha, skips⟩ => ?_
        exact ⟨a, List.mem_append_left _ ha, skips⟩
      · rcases finishes_of_told_step told with ⟨seconds, rfl, m, hm, finishes⟩
        cases finishes with
        | passed runs now ended => exact .inl ⟨_, seconds, now, ended⟩
        | skipped skips =>
            rcases skips_run m (mem_members_of_mem_head hm) skips with ⟨a, ha, skips⟩
            exact .inr ⟨a, List.mem_append_left _ ha, skips⟩

/-- A value that is kept for a leaf in the course of a run, because the member of the
running group in which it ran last was over and left the value behind. -/
inductive Kept (ops : List (Operation α μ ι)) (l : ι × Leaf α μ) (c : Channel)
    (v : PropertyValue α) : Prop where
  | left {before after : List (Operation α μ ι)} {seconds : α} {m : Member α μ ι}
      (split : ops = before ++ .advance seconds :: after)
      (hm : m ∈ Group.leavers seconds (run before).value.head)
      (hl : l ∈ m.animation.running) (value : m.animation.bequest c = some v)

/-- What is kept for a follow is what it shows when it is told of its finish. -/
theorem told_and_reading?_of_kept {f : Follow α} {c : Channel} {v : PropertyValue α}
    (h : Kept ops (listener, .follow f) c v) :
    .told .finish listener (.follow f) ∈ (run ops).log ∧ f.reading? c.property = some v := by
  rcases h with ⟨split, hm, hl, value⟩
  subst split
  rw [run_append, Logged.log_bind]
  constructor
  · exact List.mem_append_right _ (List.mem_append_left _ (told_of_mem_leavers hm hl))
  · exact Animation.reading?_of_bequest (Group.mem_leavers.mp hm).2 hl value

end Scheduler

/-! ## Landing -/

namespace Scheduler

variable {μ ι : Type} [Motion ℝ μ]

/-- Whenever a follow is told of its finish in the course of a run, it shows the end of
everything that it drives, unless it was inserted to be skipped: then it is as it was
inserted, and if it was inserted at its start, it shows the end of nothing.  What is kept
for a follow is what it shows then. -/
theorem run_landed (ops : List (Operation ℝ μ ι)) :
    (∀ listener f, .told .finish listener (.follow f) ∈ (run ops).log →
      f.Landed ∨ ((∃ a ∈ Operation.added ops, a.Skips (listener, .follow f)) ∧
        (f.Fresh → ∀ p, f.driven.contains p = true → f.reading? p ≠ f.target? p))) ∧
    ∀ listener f c v, Kept ops (listener, .follow f) c v →
      .told .finish listener (.follow f) ∈ (run ops).log ∧ f.reading? c.property = some v := by
  refine ⟨fun listener f told => ?_, fun listener f c v => told_and_reading?_of_kept⟩
  rcases passed_or_skipped_of_told told with ⟨before, seconds, now, ended⟩ | skips
  · cases before with
    | motion m => cases now
    | follow g =>
        cases now
        exact .inl (Follow.landed_advance ended)
  · exact .inr ⟨skips, fun fresh p => fresh.reading?_ne_target?⟩

section

variable {a : Animation ℝ μ ι} {seconds : ℝ} {listener : ι} {f : Follow ℝ} {c : Channel}
  {v : PropertyValue ℝ}

/-- Of an animation that runs alone and is over, what its follow leaves behind is kept. -/
private theorem kept_of_alone (ended : (a.advanced seconds).finished = true)
    (runs : (listener, .follow f) ∈ (a.advanced seconds).running)
    (left : (a.advanced seconds).bequest c = some v) :
    Kept [.add a false, .advance seconds] (listener, .follow f) c v ∧
      (run [.add a false, .advance seconds]).value.cache.find? c = some v := by
  have head : (run [.add a false]).value.head = [⟨0, a⟩] := rfl
  have leavers : Group.leavers seconds [⟨0, a⟩] = [⟨0, a.advanced seconds⟩] := by
    simpa [Group.leavers, Member.advanced, Member.finished] using ended
  constructor
  · have hm : ⟨0, a.advanced seconds⟩ ∈ Group.leavers seconds (run [.add a false]).value.head := by
      rw [head, leavers]
      exact List.mem_singleton_self _
    exact .left rfl hm runs left
  · have last : (run [.add a false, .advance seconds]).value =
        ((run [.add a false]).value.advance seconds).value := rfl
    rw [last, cache_advance, head, leavers, find?_keepAll, Group.bequest_singleton, left]
    rfl

end

/-- A second after its start a zoom to twice the scale is told of its finish, shows that
scale, and leaves it behind. -/
theorem run_landed_zoom :
    let zoom : Animation ℝ (Ramp ℝ) Nat :=
      .leaf 0 (.follow ((Follow.empty .standard).withZoom 1 2))
    let ops : List (Operation ℝ (Ramp ℝ) Nat) := [.add zoom false, .advance 1]
    ∃ f : Follow ℝ, .told .finish 0 (.follow f) ∈ (run ops).log ∧
      f.reading? .scale = some (.scalar 2) ∧
      (run ops).value.cache.find? ⟨.mapPlane, .scale⟩ = some (.scalar 2) := by
  intro zoom ops
  let f := ((Follow.empty (.standard : Timing ℝ)).withZoom 1 2).advance 1
  have past : f.finished = true := finished_zoom
  have ends : f.target? .scale = some (.scalar 2) := by
    simp only [f, withZoom_eq]
    rfl
  have drives : f.driven.contains .scale = true := by
    simp only [f, withZoom_eq]
    rfl
  rcases Option.isSome_iff_exists.mp (Follow.reading?_isSome_iff.mpr drives) with ⟨v, shows⟩
  have here : zoom.advanced 1 = .leaf 0 (.follow f) := Animation.advanced_leaf 1 _ _
  have left : (zoom.advanced 1).bequest ⟨.mapPlane, .scale⟩ = some v := by
    rw [here]
    refine Animation.bequest_eq_some_iff.mpr ⟨⟨drives, drives⟩, ?_⟩
    simp [Animation.reading, Leaf.reading, shows]
  have runs : (0, .follow f) ∈ (zoom.advanced 1).running := by simp [here]
  rcases kept_of_alone (here ▸ past) runs left with ⟨kept, found⟩
  rcases run_landed ops with ⟨landed, values⟩
  have told := (values 0 f _ v kept).1
  have landed : f.Landed := by
    refine (landed 0 f told).resolve_right ?_
    rintro ⟨⟨a, ha, skips⟩, _⟩
    obtain rfl : a = .leaf 0 (.follow ((Follow.empty .standard).withZoom 1 2)) :=
      List.mem_singleton.mp ha
    cases skips
  have arrived := landed .scale
  rw [ends] at arrived
  obtain rfl : v = .scalar 2 := Option.some.inj (shows.symm.trans arrived)
  exact ⟨f, told, arrived, found⟩

/-- A zoom to a scale that is hardly another one. -/
noncomputable def tinyZoom : Follow ℝ :=
  (Follow.empty .standard).withZoom 1 1.000005

/-- Half a second for a ramp, and behind it the tiny zoom. -/
noncomputable def rampThenTinyZoom : Animation ℝ (Ramp ℝ) Nat :=
  .inTurn [
    .leaf 0 (.motion ⟨.single .mapPlane (.ofList [.position]), true, true, 0.5, 0, .point 0⟩),
    .leaf 1 (.follow tinyZoom)]

/-- The tiny zoom, worked out: it has no duration. -/
private theorem tinyZoom_eq :
    tinyZoom =
      ⟨.standard, none, none, some ⟨⟨0, 0, 0⟩, 1, 1.000005, 1⟩, .insert .empty .scale, rfl⟩ := by
  have larger : ¬(1.000005 : ℝ) < 1 := by norm_num
  have differ : ((1 : ℝ) == 1.000005) = false := by norm_num
  have instant : (Timing.standard : Timing ℝ).zoomDuration 1 1.000005 = 0 := by
    rw [Timing.zoomDuration, Timing.zoomRatio, if_neg larger, Scalar.abs_eq, if_pos]
    rw [Timing.negligible, div_one, abs_of_pos (by norm_num)]
    norm_num
  simp [tinyZoom, Follow.withZoom, Follow.putZoom, differ, Follow.empty, Tween.zoom,
    Tween.ofDuration, Clock.start, instant]

/-- After half a second the tiny zoom is left. -/
private theorem advanced_rampThenTinyZoom :
    rampThenTinyZoom.advanced 0.5 = .sequence [.leaf 1 (.follow tinyZoom)] := by
  rw [rampThenTinyZoom, Animation.inTurn, Animation.advanced_sequence_cons_cons,
    Animation.advanced_leaf, if_pos]
  simp [Animation.finished, Leaf.finished, Leaf.advance, Motion.finished, Motion.advance,
    Ramp.finished, Ramp.advance]

/-- When the ramp is over, the tiny zoom is told of its finish at its start, and the scale
at its start is kept for it. -/
theorem not_landed_rampThenTinyZoom :
    let r := run [.add rampThenTinyZoom false, .advance 0.5]
    .told .finish 1 (.follow tinyZoom) ∈ r.log ∧
      tinyZoom.reading? .scale = some (.scalar 1) ∧
      tinyZoom.target? .scale = some (.scalar 1.000005) ∧
      r.value.cache.find? ⟨.mapPlane, .scale⟩ = some (.scalar 1) ∧
      (1 : ℝ) ≠ 1.000005 := by
  intro r
  have past : (rampThenTinyZoom.advanced 0.5).finished = true := by
    rw [advanced_rampThenTinyZoom, tinyZoom_eq]
    simp [Animation.finished, Leaf.finished, Follow.finished, Tween.finished, Clock.finished]
  have runs : (1, .follow tinyZoom) ∈ (rampThenTinyZoom.advanced 0.5).running := by
    simp [advanced_rampThenTinyZoom]
  have left : (rampThenTinyZoom.advanced 0.5).bequest ⟨.mapPlane, .scale⟩ = some (.scalar 1) := by
    rw [advanced_rampThenTinyZoom, tinyZoom_eq]
    rfl
  rcases kept_of_alone past runs left with ⟨kept, found⟩
  refine ⟨(told_and_reading?_of_kept kept).1, ?_, ?_, found, by norm_num⟩
  · rw [tinyZoom_eq]
    rfl
  · rw [tinyZoom_eq]
    rfl

end Scheduler

end CameraMotion
