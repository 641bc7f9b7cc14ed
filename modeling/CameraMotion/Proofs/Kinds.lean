import CameraMotion.Proofs.Accounting
import CameraMotion.Proofs.Members
import CameraMotion.Proofs.Turns

/-!
# Kinds of values

A position is a point, and an angle or a scale factor is a scalar, but nothing keeps a
value of the other kind from a channel.  It is the leaves that choose.  From there a value
goes through parallels and sequences, is kept when the animation goes, and is read by
somebody else.  On that way nobody makes up a value: the scalar that stands in where none
can be read is never kept, and never read.

Main results:

- Theorem `Animation.exists_leaf_of_exposes`: what an animation shows on a channel is what
  one of its running leaves shows there.
- Theorem `Scheduler.running_subset_leaves`: every leaf that runs after a run appears in the
  log of the run in the state that it has.
- Theorem `Scheduler.run_suited`: when the leaves of a run report values of the right kinds,
  such values are kept and read all along, and none of them is dropped on the way to the
  visible part of the map plane.
-/

namespace CameraMotion

variable {α μ ι : Type}

/-! ## Kinds -/

namespace PropertyValue

/-- Whether a value is of the kind of a property: a point for a position, and a scalar for
an angle or a scale factor. -/
def suits : PropertyValue α → Property → Bool
  | .point _, .position => true
  | .scalar _, .angle => true
  | .scalar _, .scale => true
  | _, _ => false

variable {v : PropertyValue α}

/-- A position is a point. -/
theorem suits_position_iff : v.suits .position = true ↔ ∃ p, v = .point p := by
  cases v <;> simp [suits]

/-- An angle is a number. -/
theorem suits_angle_iff : v.suits .angle = true ↔ ∃ x, v = .scalar x := by
  cases v <;> simp [suits]

/-- A scale is a number. -/
theorem suits_scale_iff : v.suits .scale = true ↔ ∃ x, v = .scalar x := by
  cases v <;> simp [suits]

end PropertyValue

/-- A follow shows values of the right kinds. -/
theorem Follow.suits_of_reading? {f : Follow α} {p : Property} {v : PropertyValue α}
    (h : f.reading? p = some v) : v.suits p = true := by
  cases p <;> rcases Option.map_eq_some_iff.mp h with ⟨t, _, rfl⟩ <;> rfl

/-- Every kept value is of the kind of its channel. -/
def Cache.Suited (cache : Cache α) : Prop :=
  ∀ c v, cache.find? c = some v → v.suits c.property = true

/-- Where nothing is kept, everything that is kept has the right kind. -/
theorem Cache.suited_empty : (Cache.empty : Cache α).Suited := by
  intro c v found
  simp at found

/-- What is kept keeps its kind when a value is dropped. -/
theorem Cache.Suited.discard {cache : Cache α} (h : cache.Suited) (c : Channel) :
    (cache.discard c).Suited := by
  intro d v found
  rw [find?_discard] at found
  split at found
  · cases found
  · exact h d v found

/-! ## Animations -/

namespace Animation

variable [Scalar α] [Motion α μ]

/-- Wherever the animation drives a channel, its value there is of the right kind. -/
def Suited (a : Animation α μ ι) : Prop :=
  ∀ c, a.exposes c = true → (a.reading c).value.suits c.property = true

instance (a : Animation α μ ι) : Decidable a.Suited :=
  decidable_of_iff
    (∀ c ∈ Channel.all, a.exposes c = true → (a.reading c).value.suits c.property = true)
    ⟨fun h c => h c (Channel.mem_all c), fun h c _ => h c⟩

/-- Follows report values of the right kinds. -/
theorem suited_follow (listener : ι) (f : Follow α) :
    (Animation.leaf listener (.follow f) : Animation α μ ι).Suited := by
  rintro ⟨o, p⟩ drives
  rw [exposes] at drives
  have driven : f.driven.contains p = true := by
    cases o with
    | mapPlane => exact drives
    | myPosition | selection => cases p <;> cases drives
  rcases Option.isSome_iff_exists.mp (Follow.reading?_isSome_iff.mpr driven) with ⟨v, found⟩
  rw [reading, Leaf.reading, Logged.value_bind]
  simpa [found] using Follow.suits_of_reading? found

/-- What an animation shows on a channel is what one of its running leaves shows there. -/
theorem exists_leaf_of_exposes {a : Animation α μ ι} {c : Channel}
    (drives : a.exposes c = true) :
    ∃ l ∈ a.running, (Animation.leaf l.1 l.2).exposes c = true ∧
      a.reading c = (Animation.leaf l.1 l.2).reading c := by
  induction a with
  | leaf listener body => exact ⟨(listener, body), by simp, drives, rfl⟩
  | parallel declared members ih =>
      rcases exists_member_of_exposes drives with ⟨m, hm, here, first⟩
      rcases ih m hm here with ⟨l, hl, shows, same⟩
      refine ⟨l, ?_, shows, first.trans same⟩
      rw [running_parallel]
      exact List.mem_flatMap.mpr ⟨m, hm, hl⟩
  | sequence stages ih =>
      cases stages with
      | nil => simp [exposes] at drives
      | cons head rest =>
          rw [exposes] at drives
          rw [running_sequence_cons, reading]
          exact ih head (by simp) drives

/-- When its running leaves report values of the right kinds, so does the animation. -/
theorem suited_of_running {a : Animation α μ ι}
    (h : ∀ l ∈ a.running, (Animation.leaf l.1 l.2).Suited) : a.Suited := by
  intro c drives
  rcases exists_leaf_of_exposes drives with ⟨l, hl, shows, same⟩
  rw [same]
  exact h l hl c shows

end Animation

/-! ## The leaves of a log -/

namespace Event

/-- The leaf that an event is about, with its listener, if there is one. -/
def leaf? : Event α μ ι → Option (ι × Leaf α μ)
  | .told _ listener body => some (listener, body)
  | .advanced listener body => some (listener, body)
  | .breach _ => none
  | .fault _ => none

/-- The leaves that appear in a log, in the states that they have there. -/
def leaves (log : List (Event α μ ι)) : List (ι × Leaf α μ) :=
  log.filterMap leaf?

/-- A leaf is shown by a log when an event of the log shows it. -/
theorem mem_leaves {log : List (Event α μ ι)} {l : ι × Leaf α μ} :
    l ∈ leaves log ↔ ∃ e ∈ log, e.leaf? = some l :=
  List.mem_filterMap

/-- A longer log shows more leaves. -/
theorem leaves_subset {log log' : List (Event α μ ι)} (h : log ⊆ log') :
    leaves log ⊆ leaves log' :=
  List.filterMap_subset leaf? h

end Event

namespace Animation

variable [Scalar α] [Motion α μ]

/-- Whoever runs in an animation that is started, is told so. -/
theorem running_subset_start (a : Animation α μ ι) :
    a.running ⊆ Event.leaves (a.tell .start).log := by
  intro l hl
  exact Event.mem_leaves.mpr ⟨_, (mem_log_tell (by simp)).mpr ⟨l, hl, rfl⟩, rfl⟩

/-- Whoever runs in an animation once time has passed in it, was advanced or started. -/
theorem running_subset_advance (seconds : α) (a : Animation α μ ι) :
    (a.advanced seconds).running ⊆ Event.leaves (a.advance seconds).log := by
  induction a with
  | leaf listener body => simp [advance, Event.leaves, Event.leaf?]
  | parallel declared members ih =>
      rw [advanced_parallel, running_parallel, log_advance_parallel]
      intro l hl
      rcases List.mem_flatMap.mp hl with ⟨m, hm, hl⟩
      rcases mem_stayers.mp hm with ⟨⟨m₀, hm₀, rfl⟩, _⟩
      refine Event.leaves_subset (fun e he => ?_) (ih m₀ hm₀ hl)
      exact List.mem_flatMap.mpr ⟨m₀, hm₀, List.mem_append_left _ he⟩
  | sequence stages ih =>
      rcases stages with _ | ⟨head, _ | ⟨next, later⟩⟩
      · simp
      · rw [advanced_sequence_single, running_sequence_cons, log_advance_sequence_single]
        exact ih head (by simp)
      · rw [advanced_sequence_cons_cons, log_advance_sequence_cons_cons]
        intro l hl
        split at hl
        · next ended =>
            -- The stage that runs now was started in this step, but not advanced.
            rw [running_sequence_cons] at hl
            refine Event.leaves_subset (fun e he => ?_) (next.running_subset_start hl)
            rw [if_pos ended]
            exact List.mem_append_right _ he
        · rw [running_sequence_cons] at hl
          refine Event.leaves_subset (fun e he => ?_) (ih head (by simp) hl)
          exact List.mem_append_left _ (List.mem_append_left _ he)

end Animation

/-! ## Runs -/

namespace Scheduler

variable [Scalar α] [Motion α μ] {s : Scheduler α μ ι} {op : Operation α μ ι}
  {ops : List (Operation α μ ι)}

/-- Wherever a new member is put, it is told of its start. -/
private theorem start_subset_place (new : Member α μ ι) (force : Bool)
    (chain : List (Group α μ ι)) (cache : Cache α) :
    (new.animation.tell .start).log ⊆ (place new force chain cache).log := by
  induction chain generalizing cache with
  | nil => simp [place]
  | cons g gs ih =>
      rw [place, Logged.log_bind]
      split
      · intro e he
        simp [he]
      · intro e he
        simp [ih _ he]

/-- An insertion shows the running leaves of the new animation in the log. -/
theorem running_subset_leaves_add (s : Scheduler α μ ι) (a : Animation α μ ι) (force : Bool) :
    a.running ⊆ Event.leaves (s.add a force).log := by
  refine fun l hl => Event.leaves_subset (fun e he => ?_) (a.running_subset_start hl)
  exact List.mem_append_left _ (start_subset_place ⟨s.nextId, a⟩ force s.chain s.cache he)

/-- A step of time shows the running leaves of every running member in the log. -/
theorem running_subset_leaves_advance {m : Member α μ ι} (hm : m ∈ s.head) (seconds : α) :
    (m.advanced seconds).animation.running ⊆ Event.leaves (s.advance seconds).log := by
  refine fun l hl => Event.leaves_subset (fun e he => ?_)
    (m.animation.running_subset_advance seconds hl)
  rw [log_advance]
  exact List.mem_flatMap.mpr ⟨m, hm, List.mem_append_left _ he⟩

/-- Every leaf that runs after a run appears in the log of the run in the state that it
has, also those of animations that wait. -/
theorem running_subset_leaves (ops : List (Operation α μ ι)) :
    ∀ m ∈ (run ops).value.members, m.animation.running ⊆ Event.leaves (run ops).log := by
  induction ops using List.reverseRecOn with
  | nil => simp [members, empty]
  | append_singleton ops op ih =>
      rw [run_concat, Logged.value_bind, Logged.log_bind]
      intro m hm
      rcases origin_of_mem_step hm with hm | ⟨seconds, rfl, n, hn, rfl⟩ | ⟨a, force, rfl, rfl⟩
      · exact fun l hl => Event.leaves_subset (List.subset_append_left _ _) (ih m hm hl)
      · exact fun l hl => Event.leaves_subset (List.subset_append_right _ _)
          (running_subset_leaves_advance hn seconds hl)
      · exact fun l hl => Event.leaves_subset (List.subset_append_right _ _)
          (running_subset_leaves_add _ a force hl)

/-! ### What is kept -/

/-- What is kept has the right kind when an animation adds values of the right kind. -/
theorem suited_keep {cache : Cache α} (h : cache.Suited) {a : Animation α μ ι} (ha : a.Suited) :
    (keep cache a).value.Suited := by
  intro c v found
  rw [find?_keep, Option.or_eq_some_iff] at found
  rcases found with left | ⟨_, found⟩
  · rcases Animation.bequest_eq_some_iff.mp left with ⟨⟨_, drives⟩, rfl⟩
    exact ha c drives
  · exact h c v found

/-- What is kept has the right kind when several members add values of the right kind. -/
theorem suited_keepAll {cache : Cache α} (h : cache.Suited) {ms : Group α μ ι}
    (hms : ∀ m ∈ ms, m.animation.Suited) : (keepAll cache ms).Suited := by
  induction ms generalizing cache with
  | nil => exact h
  | cons m ms ih =>
      rw [keepAll_cons]
      exact ih (suited_keep h (hms m (by simp))) fun n hn => hms n (List.mem_cons_of_mem _ hn)

/-- A read leaves nothing of a wrong kind behind. -/
theorem suited_cache_read (h : s.cache.Suited) (c : Channel) (fallback : PropertyValue α) :
    (s.read c fallback).value.2.cache.Suited := by
  cases shown : s.shows c with
  | some v => simpa [read_of_shows shown] using h
  | none => simpa [read_of_shows_eq_none shown] using h.discard c

/-- After an operation, everything that is kept is of the right kind, if that held before,
of the members before and of the leaves that appear in its log, and of the animation whose
values are to be kept. -/
theorem suited_cache_step (h : s.cache.Suited) (hm : ∀ m ∈ s.members, m.animation.Suited)
    (reports : ∀ l ∈ Event.leaves (s.step op).log, (Animation.leaf l.1 l.2).Suited)
    (saved : ∀ a, op = .save a → a.Suited) : (s.step op).value.cache.Suited := by
  cases op with
  | add a force =>
      rw [step, cache_add]
      exact suited_keepAll h fun m gone => hm m ((evictions_sublist a force s.chain).subset gone)
  | advance seconds =>
      rw [step, cache_advance]
      refine suited_keepAll h fun m gone => ?_
      -- What is left behind is what the leaves show after their last advance.
      rcases Group.mem_leavers.mp gone with ⟨⟨n, hn, rfl⟩, _⟩
      exact Animation.suited_of_running fun l hl =>
        reports l (running_subset_leaves_advance hn seconds hl)
  | read c fallback => exact suited_cache_read h c fallback
  | rect v =>
      simp only [step, rect, Logged.value_map, Logged.value_bind, Logged.value_pure]
      exact suited_cache_read (suited_cache_read (suited_cache_read h _ _) _ _) _ _
  | save a => exact suited_keep h (saved a rfl)
  | clear => exact Cache.suited_empty

/-- All values that a run keeps have the right kind when all leaves that its log shows
report values of the right kind. -/
theorem suited_cache_run
    (reports : ∀ l ∈ Event.leaves (run ops).log, (Animation.leaf l.1 l.2).Suited)
    (saved : ∀ a, .save a ∈ ops → a.Suited) : (run ops).value.cache.Suited := by
  induction ops using List.reverseRecOn with
  | nil => exact Cache.suited_empty
  | append_singleton ops op ih =>
      rw [run_concat, Logged.log_bind] at reports
      have before : ∀ l ∈ Event.leaves (run ops).log, (Animation.leaf l.1 l.2).Suited :=
        fun l hl => reports l (Event.leaves_subset (List.subset_append_left _ _) hl)
      rw [run_concat, Logged.value_bind]
      refine suited_cache_step (ih before fun a ha => saved a (List.mem_append_left _ ha))
        (fun m hm => ?_) (fun l hl => ?_) fun a same => saved a (by simp [same])
      · exact Animation.suited_of_running fun l hl => before l (running_subset_leaves ops m hm hl)
      · exact reports l (Event.leaves_subset (List.subset_append_right _ _) hl)

/-! ### What is read -/

/-- A read of another channel does not change what is read. -/
theorem value_read_read {c d : Channel} (other : d ≠ c) (fallback fallback' : PropertyValue α) :
    ((s.read c fallback).value.2.read d fallback').value.1 = (s.read d fallback').value.1 := by
  rcases read_others s c fallback with ⟨cache, same, eq⟩
  rw [eq, value_read_eq, value_read_eq, same d other]
  rfl

/-- All values in the scheduler are of the right kinds. -/
structure Suited (s : Scheduler α μ ι) : Prop where
  /-- Members show values of the right kinds on the channels that they drive. -/
  shown : ∀ m ∈ s.members, m.animation.Suited
  /-- Values of the right kinds are kept. -/
  kept : ∀ c v, s.cache.find? c = some v → v.suits c.property = true
  /-- A read returns a value of the right kind, whatever it is given for a fallback, or it
  returns the fallback. -/
  read : ∀ c, (∃ v, v.suits c.property = true ∧ ∀ fallback, (s.read c fallback).value.1 = v) ∨
    ∀ fallback, (s.read c fallback).value.1 = fallback
  /-- The visible part of the map plane is made of what is read for the camera, and nothing
  that is read is dropped for being of the wrong kind. -/
  rect : ∀ view : Viewport α, ∃ scale angle position,
    (s.read ⟨.mapPlane, .scale⟩ (.scalar view.scale)).value.1 = .scalar scale ∧
    (s.read ⟨.mapPlane, .angle⟩ (.scalar view.angle)).value.1 = .scalar angle ∧
    (s.read ⟨.mapPlane, .position⟩ (.point view.focus)).value.1 = .point position ∧
    (s.rect view).value.1 = ⟨position, angle, view.pixels.centered.scale scale⟩

/-- A read gives a value of the right kind, whatever the fallback, or else the fallback. -/
theorem read_of_suited (hm : ∀ m ∈ s.members, m.animation.Suited) (kept : s.cache.Suited)
    (c : Channel) :
    (∃ v, v.suits c.property = true ∧ ∀ fallback, (s.read c fallback).value.1 = v) ∨
      ∀ fallback, (s.read c fallback).value.1 = fallback := by
  simp only [value_read_eq]
  cases shown : s.shows c with
  | some v =>
      rcases exists_of_shows shown with ⟨m, running, drives, rfl⟩
      exact .inl ⟨_, hm m (mem_members_of_mem_head running) c drives, fun _ => rfl⟩
  | none =>
      cases found : s.cache.find? c with
      | some v => exact .inl ⟨v, kept c v found, fun _ => rfl⟩
      | none => exact .inr fun _ => rfl

/-- What is read is of the right kind, if the fallback is. -/
theorem suits_read (hm : ∀ m ∈ s.members, m.animation.Suited) (kept : s.cache.Suited)
    (c : Channel) (fallback : PropertyValue α) (stands : fallback.suits c.property = true) :
    (s.read c fallback).value.1.suits c.property = true := by
  rcases read_of_suited hm kept c with ⟨v, suits, same⟩ | same
  · rwa [same]
  · rwa [same]

/-- A scheduler answers with values of the right kind when its members show such values and
it keeps such values. -/
theorem suited_of_members_cache (hm : ∀ m ∈ s.members, m.animation.Suited)
    (kept : s.cache.Suited) : s.Suited where
  shown := hm
  kept := kept
  read := read_of_suited hm kept
  rect view := by
    have reads := suits_read hm kept
    rcases PropertyValue.suits_scale_iff.mp
      (reads ⟨.mapPlane, .scale⟩ (.scalar view.scale) rfl) with ⟨scale, hscale⟩
    rcases PropertyValue.suits_angle_iff.mp
      (reads ⟨.mapPlane, .angle⟩ (.scalar view.angle) rfl) with ⟨angle, hangle⟩
    rcases PropertyValue.suits_position_iff.mp
      (reads ⟨.mapPlane, .position⟩ (.point view.focus) rfl) with ⟨position, hposition⟩
    -- Each read leaves the other two channels alone.
    refine ⟨scale, angle, position, hscale, hangle, hposition, ?_⟩
    simp [rect, value_read_read, hscale, hangle, hposition, PropertyValue.scalar?,
      PropertyValue.point?]

/-- When the leaves that appear in a run report values of the right kinds wherever they
drive a channel, as follows always do, and so do the animations whose values are handed in
to be kept, then all values in the scheduler are of the right kinds from the first operation
to the last. -/
theorem run_suited (ops : List (Operation α μ ι))
    (reports : ∀ l ∈ Event.leaves (run ops).log, (Animation.leaf l.1 l.2).Suited)
    (saved : ∀ a, .save a ∈ ops → a.Suited) :
    (∀ listener f, (Animation.leaf listener (.follow f) : Animation α μ ι).Suited) ∧
      ∀ before, before <+: ops → (run before).value.Suited := by
  refine ⟨Animation.suited_follow, ?_⟩
  rintro before ⟨after, rfl⟩
  have reports : ∀ l ∈ Event.leaves (run before).log, (Animation.leaf l.1 l.2).Suited := by
    rw [run_append, Logged.log_bind] at reports
    exact fun l hl => reports l (Event.leaves_subset (List.subset_append_left _ _) hl)
  refine suited_of_members_cache (fun m hm => ?_)
    (suited_cache_run reports fun a ha => saved a (List.mem_append_left _ ha))
  exact Animation.suited_of_running fun l hl => reports l (running_subset_leaves before m hm hl)

/-- A camera that slides while it turns and then zooms, and the angle that somebody else
left it with. -/
def slideAndTurn : List (Operation Float (Ramp Float) Nat) :=
  let slide : Animation Float (Ramp Float) Nat :=
    .leaf 0 (.motion ⟨.single .mapPlane (.ofList [.position]), true, true, 1, 0, .point 0⟩)
  let turn := .ramp 1 [.angle] true true 0.5
  let zoom := .leaf 2 (.follow ((Follow.empty .standard).withZoom 1 2))
  [.save turn, .add (.together [slide, .inTurn [turn, zoom]]) false, .advance 0.5,
    .rect .standard]

/-- While the camera slides, turns and zooms, all values are of the right kinds. -/
theorem run_suited_slideAndTurn :
    (∀ l ∈ Event.leaves (run slideAndTurn).log, (Animation.leaf l.1 l.2).Suited) ∧
      (∀ a, .save a ∈ slideAndTurn → a.Suited) ∧ (run slideAndTurn).value.Suited := by
  have reports : ∀ l ∈ Event.leaves (run slideAndTurn).log, (Animation.leaf l.1 l.2).Suited := by
    decide +kernel
  have saved : ∀ a, .save a ∈ slideAndTurn → a.Suited := by
    intro a ha
    obtain rfl : a = .ramp 1 [.angle] true true 0.5 := by simpa [slideAndTurn] using ha
    decide
  exact ⟨reports, saved, (run_suited slideAndTurn reports saved).2 _ List.prefix_rfl⟩

end Scheduler

end CameraMotion
