import CameraMotion.Proofs.Lasting
import CameraMotion.Proofs.RunningTime

/-!
# Capping

The end of an animation is brought forward in all that runs: in a motion, in every part of a
follow, in every member of a parallel, and in the first stage of a sequence.  Each time the
smaller of duration and limit takes the place of the duration, and so two caps come to one by
the smaller limit.  Where no sequence adds durations up, the animation as a whole does like
its leaves: the slowest of several parts, each cut at the limit, is the slowest part cut at
the limit.

A cap may leave a clock without any duration.  Such a clock is over together with its delay,
and no cap brings back to life what is over.

Main results:

- Class `CapsByMinimum`: the motions whose caps take a minimum.  Ramps are among them.
- Theorem `Clock.finished_cap`: a clock that is over stays over.
- Theorem `Follow.duration_cap`: the slowest part of a capped follow takes the minimum.
- Theorem `Animation.cap_cap`: two caps are one.
- Theorem `Animation.SequenceFree.duration_cap`: without sequences the duration of an
  animation becomes the minimum.
- Theorem `Animation.cap_is_minimum`: all that a cap does to an animation.
-/

namespace CameraMotion

variable {x y : ℝ}

/-! ## Motions -/

/-- Motions that are capped by minimum: the smaller of duration and limit takes the place
of the duration, while what the motion drives and shows is left alone.  A shorter duration
does not bring a motion back to life. -/
class CapsByMinimum (μ : Type) [Motion ℝ μ] where
  /-- The motion with another duration. -/
  withDuration : μ → ℝ → μ
  duration_withDuration (m : μ) (d : ℝ) : Motion.duration (withDuration m d) = d
  withDuration_withDuration (m : μ) (d e : ℝ) :
    withDuration (withDuration m d) e = withDuration m e
  declarations_withDuration (m : μ) (d : ℝ) :
    Motion.declarations (withDuration m d) = Motion.declarations m
  reading_withDuration (m : μ) (d : ℝ) (c : Channel) :
    Motion.reading (withDuration m d) c = Motion.reading m c
  finished_withDuration {m : μ} {d : ℝ} (shorter : d ≤ Motion.duration m)
    (ended : Motion.finished m = true) : Motion.finished (withDuration m d) = true
  cap_eq (m : μ) {limit : ℝ} (nonneg : 0 ≤ limit) :
    Motion.cap m limit = withDuration m (min (Motion.duration m) limit)

noncomputable instance : CapsByMinimum (Ramp ℝ) where
  withDuration r d := { r with duration := d }
  duration_withDuration _ _ := rfl
  withDuration_withDuration _ _ _ := rfl
  declarations_withDuration _ _ := rfl
  reading_withDuration _ _ _ := rfl
  finished_withDuration shorter ended :=
    decide_eq_true (shorter.trans (of_decide_eq_true ended))
  cap_eq r limit _ := by
    change (if limit < r.duration then _ else r) = { r with duration := min r.duration limit }
    split
    next below => rw [min_eq_right below.le]
    next above => rw [min_eq_left (not_lt.mp above)]

namespace CapsByMinimum

variable {μ : Type} [Motion ℝ μ] [CapsByMinimum μ]

/-- Two limits are as good as the smaller one. -/
theorem cap_cap (m : μ) (hx : 0 ≤ x) (hy : 0 ≤ y) :
    Motion.cap (Motion.cap m x) y = Motion.cap m (min x y) := by
  rw [cap_eq _ hy, cap_eq _ hx, cap_eq _ (le_min hx hy), duration_withDuration,
    withDuration_withDuration, min_assoc]

/-- A motion takes at most as long as its limit, and no longer than before. -/
theorem duration_cap (m : μ) (hx : 0 ≤ x) :
    Motion.duration (Motion.cap m x) = min (Motion.duration m) x := by
  rw [cap_eq _ hx, duration_withDuration]

/-- A motion that is over stays over. -/
theorem finished_cap {m : μ} (ended : Motion.finished m = true) (hx : 0 ≤ x) :
    Motion.finished (Motion.cap m x) = true := by
  rw [cap_eq _ hx]
  exact finished_withDuration (min_le_left _ _) ended

end CapsByMinimum

/-! ## Clocks -/

namespace Clock

/-- Two limits on a clock are as good as the smaller one. -/
theorem cap_cap (c : Clock ℝ) (x y : ℝ) : (c.cap x).cap y = c.cap (min x y) := by
  simp only [cap, Scalar.min_eq, Scalar.max_eq, max_min_distrib_right, min_assoc]

/-- A clock runs for the smaller of its duration and the limit. -/
theorem duration_cap (c : Clock ℝ) (hx : 0 ≤ x) : (c.cap x).duration = min c.duration x := by
  rw [cap, Scalar.min_eq, Scalar.max_eq, max_eq_left hx]

/-- A clock that is over stays over, also when it loses all of its duration. -/
theorem finished_cap {c : Clock ℝ} (ended : c.finished = true) (hx : 0 ≤ x) :
    (c.cap x).finished = true := by
  have shorter : (c.cap x).duration ≤ c.duration := by
    rw [c.duration_cap hx]
    exact min_le_left _ _
  rw [finished_iff] at ended ⊢
  change if (c.cap x).duration = 0 then c.delay ≤ c.elapsed
    else (c.cap x).duration + c.delay < c.elapsed
  by_cases instant : c.duration = 0
  · have none : (c.cap x).duration = 0 := by rw [c.duration_cap hx, instant, min_eq_left hx]
    rw [if_pos instant] at ended
    rwa [if_pos none]
  · rw [if_neg instant] at ended
    -- a clock that is left no duration ends with its delay, which came before its old end
    split <;> linarith

end Clock

/-! ## Follows -/

namespace Follow

/-- Two limits on a follow are as good as the smaller one. -/
theorem cap_cap (f : Follow ℝ) (x y : ℝ) : (f.cap x).cap y = f.cap (min x y) := by
  simp only [cap, Tween.cap, Option.map_map, Function.comp_def, Clock.cap_cap]

/-- A part that is not there takes no time, with a limit or without. -/
private theorem duration_part_cap {β : Type} (part : Option (Tween ℝ β)) (hx : 0 ≤ x) :
    ((part.map (·.cap x)).map (·.duration)).getD 0 =
      min ((part.map (·.duration)).getD 0) x := by
  cases part with
  | none => exact (min_eq_left hx).symm
  | some t => exact t.clock.duration_cap hx

/-- The slowest part of a capped follow takes the smaller of what it took and the limit. -/
theorem duration_cap (f : Follow ℝ) (hx : 0 ≤ x) : (f.cap x).duration = min f.duration x := by
  simp only [duration, cap, Scalar.max_eq, duration_part_cap _ hx, min_max_distrib_right]

/-- A follow that is over stays over when it is capped. -/
theorem finished_cap {f : Follow ℝ} (ended : f.finished = true) (hx : 0 ≤ x) :
    (f.cap x).finished = true := by
  rw [finished_eq, List.all_eq_true] at ended
  rw [finished_eq, clocks_cap, List.all_map, List.all_eq_true]
  exact fun c hc => Clock.finished_cap (ended c hc) hx

/-- A limit changes nothing of what a follow declares. -/
theorem declarations_cap (f : Follow ℝ) (x : ℝ) : (f.cap x).declarations = f.declarations :=
  rfl

/-- A limit changes nothing of what a follow shows. -/
theorem reading?_cap (f : Follow ℝ) (x : ℝ) (p : Property) :
    (f.cap x).reading? p = f.reading? p := by
  cases p <;> simp [reading?, cap, Tween.cap, Function.comp_def]

end Follow

/-! ## Leaves -/

variable {μ ι : Type} [Motion ℝ μ] [CapsByMinimum μ]

namespace Leaf

/-- Two limits on a leaf are as good as the smaller one. -/
theorem cap_cap (l : Leaf ℝ μ) (hx : 0 ≤ x) (hy : 0 ≤ y) :
    (l.cap x).cap y = l.cap (min x y) := by
  cases l with
  | motion m => exact congrArg Leaf.motion (CapsByMinimum.cap_cap m hx hy)
  | follow f => exact congrArg Leaf.follow (f.cap_cap x y)

/-- A leaf takes the smaller of what it took and the limit. -/
theorem duration_cap (l : Leaf ℝ μ) (hx : 0 ≤ x) : (l.cap x).duration = min l.duration x := by
  cases l with
  | motion m => exact CapsByMinimum.duration_cap m hx
  | follow f => exact f.duration_cap hx

/-- A leaf that is over stays over when it is capped. -/
theorem finished_cap {l : Leaf ℝ μ} (ended : l.finished = true) (hx : 0 ≤ x) :
    (l.cap x).finished = true := by
  cases l with
  | motion m => exact CapsByMinimum.finished_cap ended hx
  | follow f => exact Follow.finished_cap ended hx

/-- A limit changes nothing of what a leaf declares. -/
theorem declarations_cap (l : Leaf ℝ μ) (hx : 0 ≤ x) :
    (l.cap x).declarations = l.declarations := by
  cases l with
  | motion m =>
      rw [cap, CapsByMinimum.cap_eq m hx]
      exact CapsByMinimum.declarations_withDuration m _
  | follow f => exact f.declarations_cap x

/-- A limit changes nothing of what a leaf shows. -/
theorem reading_cap (l : Leaf ℝ μ) (hx : 0 ≤ x) (c : Channel) :
    ((l.cap x).reading c : Watched ℝ μ ι (PropertyValue ℝ)) = l.reading c := by
  cases l with
  | motion m =>
      rw [cap, CapsByMinimum.cap_eq m hx, reading, CapsByMinimum.reading_withDuration]
      rfl
  | follow f => simp only [cap, reading, f.reading?_cap]

end Leaf

/-! ## Trees -/

namespace Animation

section

omit [CapsByMinimum μ]

/-- To cap an animation that is a leaf is to cap the leaf. -/
@[simp]
theorem cap_leaf (listener : ι) (body : Leaf ℝ μ) :
    (Animation.leaf listener body).cap x = .leaf listener (body.cap x) := by
  rw [cap]

/-- To cap a parallel is to cap its members. -/
@[simp]
theorem cap_parallel (declared : Declarations) (members : List (Animation ℝ μ ι)) :
    (Animation.parallel declared members).cap x =
      .parallel declared (members.map (·.cap x)) := by
  rw [cap, capAll_eq]

/-- In a sequence without stages there is nothing to cap. -/
@[simp]
theorem cap_sequence_nil :
    (Animation.sequence [] : Animation ℝ μ ι).cap x = .sequence [] := by
  rw [cap]

/-- To cap a sequence is to cap the stage that runs. -/
@[simp]
theorem cap_sequence_cons (head : Animation ℝ μ ι) (rest : List (Animation ℝ μ ι)) :
    (Animation.sequence (head :: rest)).cap x = .sequence (head.cap x :: rest) := by
  rw [cap]

/-- A parallel takes as long as its slowest member. -/
theorem duration_parallel (declared : Declarations) (members : List (Animation ℝ μ ι)) :
    (Animation.parallel declared members).duration =
      (members.map (·.duration)).foldl max 0 := by
  rw [duration, durations_eq]
  exact congrArg (fun larger => (members.map (·.duration)).foldl larger 0)
    (funext₂ Scalar.max_eq)

end

/-- Two caps are one by the smaller limit. -/
theorem cap_cap (a : Animation ℝ μ ι) (hx : 0 ≤ x) (hy : 0 ≤ y) :
    (a.cap x).cap y = a.cap (min x y) := by
  induction a with
  | leaf listener body => simp [body.cap_cap hx hy]
  | parallel declared members ih =>
      simp only [cap_parallel, List.map_map]
      exact congrArg _ (List.map_congr_left ih)
  | sequence stages ih =>
      cases stages with
      | nil => simp
      | cons head rest => simp [ih head (by simp)]

/-- No cap makes an animation take longer. -/
theorem duration_cap_le (a : Animation ℝ μ ι) (hx : 0 ≤ x) : (a.cap x).duration ≤ a.duration := by
  induction a with
  | leaf listener body =>
      rw [cap_leaf, duration_leaf, duration_leaf, body.duration_cap hx]
      exact min_le_left _ _
  | parallel declared members ih =>
      have slowest := duration_parallel_le_iff.mp
        (le_refl (Animation.parallel declared members).duration)
      rw [cap_parallel, duration_parallel_le_iff]
      exact ⟨slowest.1, List.forall_mem_map.mpr fun m hm => (ih m hm).trans (slowest.2 m hm)⟩
  | sequence stages ih =>
      cases stages with
      | nil => simp
      | cons head rest =>
          rw [cap_sequence_cons, duration_sequence_cons, duration_sequence_cons]
          exact add_le_add_left (ih head (by simp)) _

/-- What is over stays over. -/
theorem finished_cap {a : Animation ℝ μ ι} (ended : a.finished = true) (hx : 0 ≤ x) :
    (a.cap x).finished = true := by
  induction a with
  | leaf listener body => exact Leaf.finished_cap ended hx
  | parallel declared members ih => simpa using ended
  | sequence stages ih =>
      rcases stages with _ | ⟨head, _ | ⟨next, later⟩⟩
      · exact ended
      · rw [finished_sequence_single] at ended
        rw [cap_sequence_cons, finished_sequence_single]
        exact ih head (by simp) ended
      · simp at ended

/-- A capped animation drives what it drove before. -/
theorem exposes_cap (a : Animation ℝ μ ι) (hx : 0 ≤ x) (c : Channel) :
    (a.cap x).exposes c = a.exposes c := by
  induction a with
  | leaf listener body => rw [cap_leaf, exposes, exposes, body.declarations_cap hx]
  | parallel declared members ih =>
      rw [Bool.eq_iff_iff, cap_parallel, exposes_parallel, exposes_parallel]
      simp only [List.mem_map, exists_exists_and_eq_and]
      exact exists_congr fun m => and_congr_right fun hm => by rw [ih m hm]
  | sequence stages ih =>
      cases stages with
      | nil => simp
      | cons head rest =>
          rw [cap_sequence_cons, exposes, exposes]
          exact ih head (by simp)

/-- A capped animation shows what it showed before, and reports the same to the log. -/
theorem reading_cap (a : Animation ℝ μ ι) (hx : 0 ≤ x) (c : Channel) :
    (a.cap x).reading c = a.reading c := by
  induction a with
  | leaf listener body => rw [cap_leaf, reading, reading, body.reading_cap hx]
  | parallel declared members ih =>
      have drives : ((·.exposes c) ∘ fun m : Animation ℝ μ ι => m.cap x) = (·.exposes c) :=
        funext fun m => m.exposes_cap hx c
      have first : firstReading? c (members.map (·.cap x)) = firstReading? c members := by
        rw [firstReading?_eq, firstReading?_eq, List.find?_map, drives, Option.map_map]
        exact Option.map_congr fun m found => ih m (List.mem_of_find?_eq_some found)
      rw [cap_parallel, reading, reading, first]
  | sequence stages ih =>
      cases stages with
      | nil => simp
      | cons head rest =>
          rw [cap_sequence_cons, reading, reading]
          exact ih head (by simp)

/-- Without sequences the smaller of duration and limit becomes the duration: a maximum of
minimums is the minimum of the maximum. -/
theorem SequenceFree.duration_cap {a : Animation ℝ μ ι} (free : a.SequenceFree) (hx : 0 ≤ x) :
    (a.cap x).duration = min a.duration x := by
  induction free with
  | leaf listener body => rw [cap_leaf, duration_leaf, duration_leaf, body.duration_cap hx]
  | @parallel declared members _ ih =>
      have capped : (members.map (·.cap x)).map (·.duration) =
          (members.map (·.duration)).map (min · x) := by
        rw [List.map_map, List.map_map]
        exact List.map_congr_left ih
      rw [cap_parallel, duration_parallel, duration_parallel, capped]
      calc ((members.map (·.duration)).map (min · x)).foldl max 0
          _ = ((members.map (·.duration)).map (min · x)).foldl max (min 0 x) := by
            rw [min_eq_left hx]
          _ = min ((members.map (·.duration)).foldl max 0) x := by
            rw [List.foldl_map]
            exact List.foldl_hom (min · x) fun slowest d => (min_max_distrib_right slowest d x).symm

/-- What a cap does to an animation, whenever it is made.  Two caps are one by the smaller
limit; no cap lengthens the duration, brings back to life what is over, or changes what is
shown; and without sequences the smaller of duration and limit becomes the duration. -/
theorem cap_is_minimum (a : Animation ℝ μ ι) (hx : 0 ≤ x) :
    (∀ y, 0 ≤ y → (a.cap x).cap y = a.cap (min x y)) ∧
      (a.cap x).duration ≤ a.duration ∧
      (a.finished = true → (a.cap x).finished = true) ∧
      (∀ c, (a.cap x).exposes c = a.exposes c ∧ (a.cap x).reading c = a.reading c) ∧
      (a.SequenceFree → (a.cap x).duration = min a.duration x) :=
  ⟨fun _ hy => a.cap_cap hx hy, a.duration_cap_le hx, fun ended => finished_cap ended hx,
    fun c => ⟨a.exposes_cap hx c, a.reading_cap hx c⟩, fun free => free.duration_cap hx⟩

/-- A ramp beside a follow. -/
noncomputable def rampBeside (seconds : ℝ) (f : Follow ℝ) : Animation ℝ (Ramp ℝ) Nat :=
  .together [
    .leaf 0 (.motion ⟨.single .mapPlane (.ofList [.angle]), true, true, seconds, 0, .scalar 0⟩),
    .leaf 1 (.follow f)]

/-- The ramp and the follow stand in a parallel without any sequence. -/
private theorem sequenceFree_rampBeside (seconds : ℝ) (f : Follow ℝ) :
    (rampBeside seconds f).SequenceFree := by
  refine SequenceFree.together fun m hm => ?_
  rcases List.mem_pair.mp hm with rfl | rfl
  · exact .leaf _ _
  · exact .leaf _ _

/-- The parallel takes as long as the slower one of the ramp and the follow. -/
private theorem duration_rampBeside (seconds : ℝ) (f : Follow ℝ) :
    (rampBeside seconds f).duration = max (max 0 seconds) f.duration := by
  rw [rampBeside, together]
  simp [add, duration_parallel, duration_leaf, Leaf.duration, Motion.duration]

/-- A ramp of three seconds beside a zoom keeps two of them, and then one; a zoom that is over
stays so when it is left no time at all. -/
theorem cap_is_minimum_rampBesideZoom :
    ((rampBeside 3 ((Follow.empty .standard).withZoom 1 2)).cap 2).duration = 2 ∧
      ((rampBeside 3 ((Follow.empty .standard).withZoom 1 2)).cap 2).cap 1 =
        (rampBeside 3 ((Follow.empty .standard).withZoom 1 2)).cap 1 ∧
      ((Animation.leaf 1 (.follow (((Follow.empty .standard).withZoom 1 2).advance 1)) :
        Animation ℝ (Ramp ℝ) Nat).cap 0).finished = true := by
  rcases (rampBeside 3 ((Follow.empty .standard).withZoom 1 2)).cap_is_minimum zero_le_two with
    ⟨again, _, _, _, minimum⟩
  refine ⟨?_, ?_, ?_⟩
  · rw [minimum (sequenceFree_rampBeside _ _), duration_rampBeside, Scheduler.duration_zoom]
    norm_num
  · rw [again 1 zero_le_one, min_eq_right one_le_two]
  · exact (cap_is_minimum _ le_rfl).2.2.1 Scheduler.finished_zoom

end Animation

end CameraMotion
