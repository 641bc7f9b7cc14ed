import CameraMotion.Proofs.Draining
import CameraMotion.Proofs.Fresh
import CameraMotion.Proofs.Continuity

/-!
# Cutting time into frames

Time passes in frames, and how long a frame takes is a matter of chance.  A tween works out
its value anew from all the time that has passed, so any number of frames is as good as
one that takes as long as all of them, and so it is for a follow, part by part.  A follow
that goes on after some frames went on after each of them, so the scheduler has it in the
same state, however that time was cut.

Main results:

- Theorems `Tween.foldl_advance` and `Follow.foldl_advance`: several frames are as good as
  one.
- Theorem `Scheduler.mem_head_runFrom`: a running animation is there for as long as it
  outlasts the frames by itself.
- Theorem `Scheduler.run_frames`: however time is cut into frames, the same is shown and the
  same is read.
-/

namespace CameraMotion

/-- When two steps are as good as one that takes as long as both, so are any. -/
private theorem foldl_eq_of_merge {σ : Type} {act : σ → ℝ → σ}
    (merge : ∀ s x y, act (act s x) y = act s (x + y)) (s : σ) {frames : List ℝ}
    (some : frames ≠ []) : frames.foldl act s = act s frames.sum := by
  induction frames generalizing s with
  | nil => exact absurd rfl some
  | cons x frames ih =>
      cases frames with
      | nil => simp
      | cons y frames =>
          have rest : (y :: frames).foldl act (act s x) = act (act s x) (y :: frames).sum :=
            ih (act s x) (by simp)
          rw [List.foldl_cons, rest, merge, ← List.sum_cons]

/-! ## Tweens and follows -/

namespace Tween

variable {β : Type} [Lerp ℝ β]

/-- What is shown in between leaves no trace. -/
theorem advance_advance (t : Tween ℝ β) (x y : ℝ) :
    (t.advance x).advance y = t.advance (x + y) := by
  simp [advance, Clock.advance, add_assoc]

/-- Several frames are as good as one. -/
theorem foldl_advance (t : Tween ℝ β) {frames : List ℝ} (some : frames ≠ []) :
    frames.foldl advance t = t.advance frames.sum :=
  foldl_eq_of_merge advance_advance t some

end Tween

/-- A clock that is over stays over. -/
theorem Clock.finished_advance {c : Clock ℝ} {seconds : ℝ} (forward : 0 ≤ seconds)
    (ended : c.finished = true) : (c.advance seconds).finished = true := by
  rw [finished_iff] at ended ⊢
  change if c.duration = 0 then c.delay ≤ c.elapsed + seconds
    else c.duration + c.delay < c.elapsed + seconds
  by_cases instant : c.duration = 0
  · rw [if_pos instant] at ended ⊢
    linarith
  · rw [if_neg instant] at ended ⊢
    linarith

namespace Follow

/-- Two frames are as good as one of both lengths. -/
theorem advance_advance (f : Follow ℝ) (x y : ℝ) :
    (f.advance x).advance y = f.advance (x + y) := by
  simp [advance, Option.map_map, Function.comp_def, Tween.advance_advance]

/-- Several frames are as good as one. -/
theorem foldl_advance (f : Follow ℝ) {frames : List ℝ} (some : frames ≠ []) :
    frames.foldl advance f = f.advance frames.sum :=
  foldl_eq_of_merge advance_advance f some

variable {f : Follow ℝ}

/-- A follow that is over stays over. -/
theorem finished_advance {seconds : ℝ} (forward : 0 ≤ seconds) (ended : f.finished = true) :
    (f.advance seconds).finished = true := by
  rw [finished_eq, List.all_eq_true] at ended ⊢
  intro c hc
  rw [clocks_advance] at hc
  rcases List.mem_map.mp hc with ⟨before, there, rfl⟩
  exact Clock.finished_advance forward (ended before there)

/-- A follow that is over stays over. -/
theorem finished_foldl_advance {frames : List ℝ} (forward : ∀ x ∈ frames, 0 ≤ x)
    (ended : f.finished = true) : (frames.foldl advance f).finished = true := by
  induction frames generalizing f with
  | nil => exact ended
  | cons x frames ih =>
      have next := finished_advance (forward x List.mem_cons_self) ended
      exact ih (fun y hy => forward y (List.mem_cons_of_mem x hy)) next

end Follow

/-! ## Animations -/

namespace Animation

variable {μ ι : Type} [Motion ℝ μ] {listener : ι} {f : Follow ℝ}

/-- Of a follow in an animation the follow is left, after all of the frames. -/
theorem elapsed_follow (listener : ι) (f : Follow ℝ) (frames : List ℝ) :
    (Animation.leaf listener (.follow f) : Animation ℝ μ ι).elapsed frames =
      .leaf listener (.follow (frames.foldl Follow.advance f)) := by
  rw [elapsed_leaf, Leaf.foldl_advance_follow]

/-- A follow that goes on after some frames went on after each of them. -/
theorem outlasts_follow {frames : List ℝ} (forward : ∀ x ∈ frames, 0 ≤ x)
    (goes : (frames.foldl Follow.advance f).finished = false) :
    (Animation.leaf listener (.follow f) : Animation ℝ μ ι).outlasts frames = true := by
  induction frames generalizing f with
  | nil => rfl
  | cons x frames ih =>
      have rest : ∀ y ∈ frames, 0 ≤ y := fun y hy => forward y (List.mem_cons_of_mem _ hy)
      have stays : (f.advance x).finished = false := by
        rw [← Bool.not_eq_true]
        intro ended
        have past := Follow.finished_foldl_advance rest ended
        rw [List.foldl_cons, past] at goes
        exact Bool.false_ne_true goes.symm
      have next := ih rest goes
      rw [outlasts_cons, advanced_leaf]
      exact Bool.and_eq_true_iff.mpr ⟨by simp [finished, Leaf.finished, Leaf.advance, stays], next⟩

/-- What a follow shows is read off it. -/
theorem reading_follow {p : Property} {v : PropertyValue ℝ} (shown : f.reading? p = some v) :
    ((Animation.leaf listener (.follow f) : Animation ℝ μ ι).reading ⟨.mapPlane, p⟩).value = v := by
  simp [reading, Leaf.reading, shown]

/-- A follow drives the properties that it shows. -/
theorem exposes_follow {p : Property} {v : PropertyValue ℝ} (shown : f.reading? p = some v) :
    (Animation.leaf listener (.follow f) : Animation ℝ μ ι).exposes ⟨.mapPlane, p⟩ = true := by
  have drives : f.driven.contains p = true := by
    rw [← Follow.reading?_isSome_iff, shown, Option.isSome_some]
  exact drives

end Animation

/-! ## The scheduler -/

namespace Scheduler

section

variable {α μ ι : Type} [Scalar α] [Motion α μ] {s : Scheduler α μ ι} {m : Member α μ ι}

/-- A running animation is there for as long as it outlasts the frames by itself, in the
state that it has by itself. -/
theorem mem_head_runFrom (hm : m ∈ s.head) {frames : List α}
    (goes : m.animation.outlasts frames = true) :
    ⟨m.id, m.animation.elapsed frames⟩ ∈ (s.runFrom (frames.map .advance)).value.head := by
  induction frames generalizing s m with
  | nil => exact hm
  | cons x frames ih =>
      rw [Animation.outlasts_cons, Bool.and_eq_true, Bool.not_eq_true'] at goes
      exact ih (mem_head_advance hm goes.1) goes.2

/-- What is read on a channel is what the only running member shows that drives it. -/
theorem value_read_of_sole {c : Channel} (hm : m ∈ s.head) (drives : m.animation.exposes c = true)
    (sole : ∀ n ∈ s.head, n.animation.exposes c = true → n = m) (fallback : PropertyValue α) :
    (s.read c fallback).value.1 = (m.animation.reading c).value := by
  cases shown : s.shows c with
  | none =>
      rw [shows_eq_none_iff.mp shown m hm] at drives
      exact absurd drives Bool.false_ne_true
  | some v =>
      rcases exists_of_shows shown with ⟨n, hn, drives', rfl⟩
      rw [value_read_eq, shown, sole n hn drives']
      rfl

end

variable {μ ι : Type} [Motion ℝ μ]

omit [Motion ℝ μ] in
/-- Frames insert nothing. -/
private theorem added_advances (frames : List ℝ) :
    Operation.added (frames.map .advance : List (Operation ℝ μ ι)) = [] := by
  simp [Operation.added, List.filterMap_map, Function.comp_def, Operation.added?]

/-- Two ways to cut the same time into frames bring a tween, and a follow, into the same
state.  A follow that runs in the scheduler by itself and goes on after that time is in
that state after either, and the value that it shows on a property is read then, whenever
no other running member drives the property too; so it is without sequences, and with
leaves that declare the same for as long as they live. -/
theorem run_frames {frames others : List ℝ} (some : frames ≠ []) (some' : others ≠ [])
    (same : frames.sum = others.sum) :
    (∀ t : Tween ℝ (Point ℝ), frames.foldl Tween.advance t = others.foldl Tween.advance t) ∧
    (∀ t : Tween ℝ ℝ, frames.foldl Tween.advance t = others.foldl Tween.advance t) ∧
    (∀ f : Follow ℝ, frames.foldl Follow.advance f = others.foldl Follow.advance f) ∧
    ((∀ x ∈ frames, 0 ≤ x) → (∀ x ∈ others, 0 ≤ x) →
      ∀ (ops : List (Operation ℝ μ ι)) (id : Nat) (listener : ι) (f : Follow ℝ),
        ⟨id, .leaf listener (.follow f)⟩ ∈ (run ops).value.head →
        (frames.foldl Follow.advance f).finished = false →
        ∀ cut ∈ [frames, others],
          let g := frames.foldl Follow.advance f
          let later : Member ℝ μ ι := ⟨id, .leaf listener (.follow g)⟩
          let s := (run (ops ++ cut.map .advance)).value
          later ∈ s.head ∧ ∀ p v, g.reading? p = Option.some v →
            (later.animation.reading ⟨.mapPlane, p⟩).value = v ∧
            ((∀ a ∈ Operation.added ops, a.Built Leaf.Steady ∧ a.SequenceFree) ∨
              (∀ m ∈ s.head, m.animation.exposes ⟨.mapPlane, p⟩ = true → m = later) →
              ∀ fallback, (s.read ⟨.mapPlane, p⟩ fallback).value.1 = v)) := by
  have follows (f : Follow ℝ) : frames.foldl Follow.advance f = others.foldl Follow.advance f := by
    rw [Follow.foldl_advance f some, Follow.foldl_advance f some', same]
  refine ⟨fun t => ?_, fun t => ?_, follows, ?_⟩
  · rw [Tween.foldl_advance t some, Tween.foldl_advance t some', same]
  · rw [Tween.foldl_advance t some, Tween.foldl_advance t some', same]
  · intro forward forward' ops id listener f runs goes cut hcut g later s
    have ⟨reached, ahead⟩ : cut.foldl Follow.advance f = g ∧ ∀ x ∈ cut, 0 ≤ x := by
      rcases List.mem_pair.mp hcut with rfl | rfl
      · exact ⟨rfl, forward⟩
      · exact ⟨(follows f).symm, forward'⟩
    have there : later ∈ s.head := by
      have outlasts : (Animation.leaf listener (.follow f) : Animation ℝ μ ι).outlasts cut = true :=
        Animation.outlasts_follow ahead (reached ▸ goes)
      have stays := mem_head_runFrom runs outlasts
      rw [Animation.elapsed_follow, reached] at stays
      simpa only [s, run_append, Logged.value_bind] using stays
    refine ⟨there, fun p v shown => ⟨Animation.reading_follow shown, fun alone fallback => ?_⟩⟩
    have drives : later.animation.exposes ⟨.mapPlane, p⟩ = true := Animation.exposes_follow shown
    refine (value_read_of_sole there drives ?_ fallback).trans (Animation.reading_follow shown)
    rcases alone with built | alone
    · have orderly : Orderly s := by
        refine orderly_run _ fun a ha => built a ?_
        simpa only [Operation.added_append, added_advances, List.append_nil] using ha
      exact fun n hn drives' => orderly.eq_of_exposes there hn drives drives'
    · exact alone

/-- Two frames of a tenth of a second, or one of a fifth: two thirds of a zoom to twice the
scale are behind after either. -/
theorem run_frames_zoom :
    let ops : List (Operation ℝ (Ramp ℝ) Nat) :=
      [.add (.leaf 0 (.follow ((Follow.empty .standard).withZoom 1 2))) false]
    ∀ fallback, ∀ cut ∈ [[(0.1 : ℝ), 0.1], [0.2]],
      ((run (ops ++ cut.map .advance)).value.read
        ⟨.mapPlane, .scale⟩ fallback).value.1 = .scalar (5 / 3) := by
  intro ops fallback cut hcut
  let f : Follow ℝ := (Follow.empty .standard).withZoom 1 2
  have same : [(0.1 : ℝ), 0.1].sum = [(0.2 : ℝ)].sum := by norm_num
  have forward : ∀ x ∈ [(0.1 : ℝ), 0.1], 0 ≤ x := by norm_num
  have forward' : ∀ x ∈ [(0.2 : ℝ)], 0 ≤ x := by norm_num
  have goes : ([(0.1 : ℝ), 0.1].foldl Follow.advance f).finished = false := by
    rw [← Bool.not_eq_true]
    intro ended
    have passed := (Follow.Fresh.withZoom (.empty _) 1 2).duration_le_of_finished forward ended
    rw [duration_zoom] at passed
    norm_num at passed
  have shown : ([(0.1 : ℝ), 0.1].foldl Follow.advance f).reading? .scale =
      Option.some (.scalar (5 / 3)) := by
    rw [Follow.foldl_advance f (List.cons_ne_nil _ _), same]
    simp only [Follow.reading?, Follow.advance, f, withZoom_eq, Option.map_some]
    norm_num [Tween.advance, Clock.advance, Clock.progress, Clock.finished, Lerp.lerp, Scalar.lerp]
  have steady : ∀ a ∈ Operation.added ops, a.Built Leaf.Steady ∧ a.SequenceFree := by
    intro a ha
    obtain rfl := List.mem_singleton.mp ha
    exact ⟨.leaf (Leaf.steady_follow _), .leaf _ _⟩
  have there := (run_frames (List.cons_ne_nil _ _) (List.cons_ne_nil _ _) same).2.2.2 forward
    forward' ops 0 0 f (List.mem_singleton_self _) goes
  exact ((there cut hcut).2 .scale _ shown).2 (.inl steady) fallback

end Scheduler

end CameraMotion
