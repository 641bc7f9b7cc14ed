import CameraMotion.Proofs.Exclusivity
import CameraMotion.Proofs.Members

/-!
# Continuity over time

Whoever drives a channel and is over leaves its last value behind, so a channel that
was driven just before time passes can be read right after.  This reaches as far as
values are looked at: a member of the running group is looked at when it is over, a
part of a parallel is not.  The value of a part that is over inside a parallel is gone
at once, whether the parallel goes on or is over together with its last part; what is
read then is older.

Main results:

- Theorem `Animation.exposes_advanced_iff`: which channels are driven once time has
  passed.
- Theorem `Animation.declares_of_finished`: who is over declares what it still drives.
- Theorem `Animation.Lasting.finished_of_not_retains`: who drives a channel that is not
  retained is over.
- Theorem `Scheduler.exists_produced`: a channel that is retained has a value that was
  produced while time passed.
- Theorem `Scheduler.run_read_advance`: what is read right after time has passed.
-/

namespace CameraMotion

variable {α μ ι : Type} [Scalar α] [Motion α μ]

namespace Animation

/-- A leaf of the animation drives the channel once time has passed, and was not taken out
of the animation on the way: neither it nor anything that it belongs to is a part of a
parallel that is over, or a stage of a sequence that is over while another one follows.  Or
a sequence has just gone over to a stage that drives the channel.  Only the animation itself
may be over. -/
inductive Retains (seconds : α) (c : Channel) : Animation α μ ι → Prop where
  /-- The leaf drives the channel once time has passed in it. -/
  | leaf {listener : ι} {body : Leaf α μ}
      (drives : (body.advance seconds).declarations.declares c = true) :
      Retains seconds c (.leaf listener body)
  /-- A part that goes on retains the channel. -/
  | part {declared : Declarations} {members : List (Animation α μ ι)} {m : Animation α μ ι}
      (hm : m ∈ members) (retains : Retains seconds c m)
      (stays : (m.advanced seconds).finished = false) :
      Retains seconds c (.parallel declared members)
  /-- The running stage retains the channel, and is the last one or goes on. -/
  | stage {head : Animation α μ ι} {rest : List (Animation α μ ι)}
      (retains : Retains seconds c head)
      (stays : rest = [] ∨ (head.advanced seconds).finished = false) :
      Retains seconds c (.sequence (head :: rest))
  /-- The running stage is over, and the next one drives the channel. -/
  | next {head next : Animation α μ ι} {later : List (Animation α μ ι)}
      (ended : (head.advanced seconds).finished = true) (drives : next.exposes c = true) :
      Retains seconds c (.sequence (head :: next :: later))

variable {seconds : α} {c : Channel} {a : Animation α μ ι}

/-- A channel that is retained is driven once time has passed. -/
theorem Retains.exposes_advanced (h : a.Retains seconds c) :
    (a.advanced seconds).exposes c = true := by
  induction h with
  | leaf drives => simpa [exposes] using drives
  | part hm _ stays ih =>
      rw [advanced_parallel, exposes_parallel]
      exact ⟨_, mem_stayers.mpr ⟨⟨_, hm, rfl⟩, stays⟩, ih⟩
  | @stage head rest _ stays ih =>
      cases rest with
      | nil => simpa [exposes] using ih
      | cons next later =>
          have stays := stays.resolve_left (List.cons_ne_nil _ _)
          simpa [exposes, stays] using ih
  | next ended drives => simpa [exposes, ended] using drives

/-- A channel is driven once time has passed exactly when it is retained. -/
theorem exposes_advanced_iff : (a.advanced seconds).exposes c = true ↔ a.Retains seconds c := by
  refine ⟨fun exposed => ?_, Retains.exposes_advanced⟩
  induction a with
  | leaf listener body => exact .leaf (by simpa [exposes] using exposed)
  | parallel declared members ih =>
      rw [advanced_parallel, exposes_parallel] at exposed
      rcases exposed with ⟨m, hm, exposed⟩
      rcases mem_stayers.mp hm with ⟨⟨m₀, hm₀, rfl⟩, stays⟩
      exact .part hm₀ (ih m₀ hm₀ exposed) stays
  | sequence stages ih =>
      rcases stages with _ | ⟨head, _ | ⟨next, later⟩⟩
      · simp [exposes] at exposed
      · rw [advanced_sequence_single, exposes] at exposed
        exact .stage (ih head List.mem_cons_self exposed) (.inl rfl)
      · rw [advanced_sequence_cons_cons] at exposed
        cases ended : (head.advanced seconds).finished with
        | true => exact .next ended (by simpa [ended, exposes] using exposed)
        | false =>
            have drives : (head.advanced seconds).exposes c = true := by
              simpa [ended, exposes] using exposed
            exact .stage (ih head List.mem_cons_self drives) (.inr ended)

/-- Who is over declares what it still drives: a parallel without parts drives nothing, and
a sequence on its last stage declares what that stage declares. -/
theorem declares_of_finished (ended : a.finished = true)
    (drives : a.exposes c = true) : a.declarations.declares c = true := by
  induction a with
  | leaf listener body => exact drives
  | parallel declared members ih =>
      rw [finished_parallel, List.isEmpty_iff] at ended
      simp [ended, exposes, exposesAny] at drives
  | sequence stages ih =>
      rcases stages with _ | ⟨head, _ | ⟨next, later⟩⟩
      · simp [exposes] at drives
      · exact ih head List.mem_cons_self ended drives
      · simp [finished] at ended

/-- Who retains a channel and is over leaves its value there behind. -/
theorem Retains.bequest (h : a.Retains seconds c) (ended : (a.advanced seconds).finished = true) :
    (a.advanced seconds).bequest c = some ((a.advanced seconds).reading c).value := by
  have drives := h.exposes_advanced
  exact bequest_eq_some_iff.mpr ⟨⟨declares_of_finished ended drives, drives⟩, rfl⟩

/-- A leaf that keeps to what it declares retains what it drives. -/
theorem Lasting.retains_leaf {listener : ι} {body : Leaf α μ}
    (h : (Animation.leaf listener body).Lasting)
    (drives : (Animation.leaf listener body).exposes c = true) :
    (Animation.leaf listener body).Retains seconds c := by
  have same := h.declarations_advanced (by simp [IsSequence]) seconds
  rw [advanced_leaf, declarations, declarations] at same
  refine .leaf ?_
  rw [same]
  exact drives

/-- Who ran in an animation that is over once time has passed in it, is over as well. -/
theorem finished_of_mem_running {l : ι × Leaf α μ} (ended : (a.advanced seconds).finished = true)
    (hl : l ∈ a.running) : (l.2.advance seconds).finished = true := by
  induction a with
  | leaf listener body =>
      obtain rfl : l = (listener, body) := by simpa using hl
      simpa [finished] using ended
  | parallel declared members ih =>
      rw [running_parallel] at hl
      rcases List.mem_flatMap.mp hl with ⟨m, hm, hl⟩
      rw [advanced_parallel, finished_parallel, List.isEmpty_iff] at ended
      refine ih m hm ?_ hl
      by_contra stays
      rw [Bool.not_eq_true] at stays
      exact List.ne_nil_of_mem (mem_stayers.mpr ⟨⟨m, hm, rfl⟩, stays⟩) ended
  | sequence stages ih =>
      rcases stages with _ | ⟨head, _ | ⟨next, later⟩⟩
      · simp at hl
      · rw [running_sequence_cons] at hl
        rw [advanced_sequence_single, finished_sequence_single] at ended
        exact ih head List.mem_cons_self ended hl
      · rw [running_sequence_cons] at hl
        rw [advanced_sequence_cons_cons] at ended
        split at ended
        · next past => exact ih head List.mem_cons_self past hl
        · simp at ended

/-- In an animation that does not retain a channel, everybody who drove it is over. -/
theorem Lasting.finished_of_not_retains {l : ι × Leaf α μ} (h : a.Lasting)
    (drops : ¬a.Retains seconds c) (hl : l ∈ a.running)
    (drives : l.2.declarations.declares c = true) : (l.2.advance seconds).finished = true := by
  induction h with
  | @leaf listener body steady =>
      obtain rfl : l = (listener, body) := by simpa using hl
      exact absurd ((Lasting.leaf steady).retains_leaf (by simpa [exposes] using drives)) drops
  | @parallel declared members _ _ ih =>
      rw [running_parallel] at hl
      rcases List.mem_flatMap.mp hl with ⟨m, hm, hl⟩
      by_cases retains : m.Retains seconds c
      · -- The part retains the channel, so it must have been taken out itself.
        cases ended : (m.advanced seconds).finished with
        | true => exact finished_of_mem_running ended hl
        | false => exact absurd (.part hm retains ended) drops
      · exact ih m hm retains hl
  | @sequence stages _ ih =>
      rcases stages with _ | ⟨head, rest⟩
      · simp at hl
      · rw [running_sequence_cons] at hl
        by_cases retains : head.Retains seconds c
        · cases ended : (head.advanced seconds).finished with
          | true => exact finished_of_mem_running ended hl
          | false => exact absurd (.stage retains (.inr ended)) drops
        · exact ih head List.mem_cons_self retains hl

end Animation

namespace Scheduler

/-- The values that there are on a channel because time has passed: what the running
members show, and what those had last who are over now. -/
inductive Produced (s : Scheduler α μ ι) (seconds : α) (c : Channel) : PropertyValue α → Prop where
  | current {m : Member α μ ι} (hm : m ∈ (s.advance seconds).value.head)
      (drives : m.animation.exposes c = true) :
      Produced s seconds c (m.animation.reading c).value
  | final {m : Member α μ ι} (hm : m ∈ s.head) (ended : (m.advanced seconds).finished = true)
      (drives : (m.animation.advanced seconds).exposes c = true) :
      Produced s seconds c ((m.animation.advanced seconds).reading c).value

variable {s : Scheduler α μ ι} {seconds : α} {c : Channel}

/-- Who is in the running group once time has passed: the survivors, or the next group
when there are none. -/
theorem head_advance (s : Scheduler α μ ι) (seconds : α) :
    (s.advance seconds).value.head =
      if (Group.survivors seconds s.head).isEmpty then s.chain.tail.headD []
      else Group.survivors seconds s.head := by
  rw [head, chain_advance]
  split <;> rfl

/-- What is read once time has passed is what the running group shows, or else what
those left behind who are over, or else what was kept before. -/
theorem value_read_advance (s : Scheduler α μ ι) (seconds : α) (c : Channel)
    (fallback : PropertyValue α) :
    ((s.advance seconds).value.read c fallback).value.1 =
      (((s.advance seconds).value.shows c).or
        ((Group.bequest c (Group.leavers seconds s.head)).or (s.cache.find? c))).getD fallback := by
  rw [value_read_eq, cache_advance, find?_keepAll]

/-- A value that the running group shows once time has passed was produced by then. -/
theorem produced_of_shows {v : PropertyValue α}
    (h : (s.advance seconds).value.shows c = some v) : Produced s seconds c v := by
  rcases exists_of_shows h with ⟨m, hm, drives, rfl⟩
  exact .current hm drives

/-- What those left behind who are over was the last value of one of them. -/
theorem exists_of_bequest_leavers {v : PropertyValue α}
    (h : Group.bequest c (Group.leavers seconds s.head) = some v) :
    ∃ m ∈ s.head, (m.advanced seconds).finished = true ∧
      (m.animation.advanced seconds).exposes c = true ∧
      ((m.animation.advanced seconds).reading c).value = v := by
  rcases Group.bequest_eq_some_iff.mp h with ⟨before, m', after, split, left, _⟩
  have hm' : m' ∈ Group.leavers seconds s.head := by simp [split]
  rcases Group.mem_leavers.mp hm' with ⟨⟨m, hm, rfl⟩, ended⟩
  rcases Animation.bequest_eq_some_iff.mp left with ⟨⟨_, exposed⟩, value⟩
  exact ⟨m, hm, ended, exposed, value⟩

/-- When somebody goes on, the running group consists of those who do. -/
theorem head_advance_of_stays {m : Member α μ ι} (hm : m ∈ s.head)
    (stays : (m.advanced seconds).finished = false) :
    (s.advance seconds).value.head = Group.survivors seconds s.head := by
  have survives := Group.mem_survivors.mpr ⟨⟨m, hm, rfl⟩, stays⟩
  rw [head_advance, if_neg]
  rw [List.isEmpty_iff]
  exact List.ne_nil_of_mem survives

/-- A member that goes on stays in the running group. -/
theorem mem_head_advance {m : Member α μ ι} (hm : m ∈ s.head)
    (stays : (m.advanced seconds).finished = false) :
    m.advanced seconds ∈ (s.advance seconds).value.head := by
  rw [head_advance_of_stays hm stays]
  exact Group.mem_survivors.mpr ⟨⟨m, hm, rfl⟩, stays⟩

/-- Who retains a channel is over when nobody in the running group drives it. -/
theorem finished_of_shows_eq_none {m : Member α μ ι} (hm : m ∈ s.head)
    (retains : m.animation.Retains seconds c)
    (idle : (s.advance seconds).value.shows c = none) : (m.advanced seconds).finished = true := by
  by_contra stays
  rw [Bool.not_eq_true] at stays
  have drives := retains.exposes_advanced
  have idle := shows_eq_none_iff.mp idle _ (mem_head_advance hm stays)
  rw [Member.advanced, drives] at idle
  exact Bool.false_ne_true idle.symm

/-- Who retains a channel and is over leaves something there, or others do. -/
theorem exists_bequest_leavers {m : Member α μ ι} (hm : m ∈ s.head)
    (retains : m.animation.Retains seconds c) (ended : (m.advanced seconds).finished = true) :
    ∃ v, Group.bequest c (Group.leavers seconds s.head) = some v := by
  rw [← Option.isSome_iff_exists, Option.isSome_iff_ne_none]
  intro nothing
  have left := Group.mem_leavers.mpr ⟨⟨m, hm, rfl⟩, ended⟩
  have nothing := Group.bequest_eq_none_iff.mp nothing _ left
  rw [Member.advanced, retains.bequest ended] at nothing
  exact Option.some_ne_none _ nothing

/-- What the running group shows once time has passed does not depend on what was kept. -/
theorem shows_advance_cache (s : Scheduler α μ ι) (seconds : α) (cache : Cache α) (c : Channel) :
    ({ s with cache := cache }.advance seconds).value.shows c =
      (s.advance seconds).value.shows c := by
  rw [shows, shows, head_advance, head_advance]
  rfl

/-- A channel that a running member retains has a value that was produced while time
passed, whatever was kept. -/
theorem exists_produced {m : Member α μ ι} (hm : m ∈ s.head)
    (retains : m.animation.Retains seconds c) :
    ∃ v, Produced s seconds c v ∧ ∀ cache fallback,
      (({ s with cache := cache }.advance seconds).value.read c fallback).value.1 = v := by
  suffices ∃ v, Produced s seconds c v ∧
      ((s.advance seconds).value.shows c).or
        (Group.bequest c (Group.leavers seconds s.head)) = some v by
    rcases this with ⟨v, produced, found⟩
    refine ⟨v, produced, fun cache fallback => ?_⟩
    rw [value_read_advance, shows_advance_cache, ← Option.or_assoc]
    show ((((s.advance seconds).value.shows c).or
      (Group.bequest c (Group.leavers seconds s.head))).or (cache.find? c)).getD fallback = v
    rw [found]
    rfl
  cases shown : (s.advance seconds).value.shows c with
  | some v => exact ⟨v, produced_of_shows shown, rfl⟩
  | none =>
      have ended := finished_of_shows_eq_none hm retains shown
      rcases exists_bequest_leavers hm retains ended with ⟨v, found⟩
      rcases exists_of_bequest_leavers found with ⟨n, hn, ended, drives, rfl⟩
      exact ⟨_, .final hn ended drives, found⟩

/-- In an orderly scheduler, nobody but the member that drives a channel drives it once
time has passed. -/
theorem Orderly.eq_of_exposes_advanced (h : Orderly s) {m n : Member α μ ι} (hm : m ∈ s.head)
    (hn : n ∈ s.head) (driven : m.animation.exposes c = true)
    (drives : (n.animation.advanced seconds).exposes c = true) : n = m := by
  rcases h.lasting_of_mem_head hn with ⟨lasting, free⟩
  have declares := (lasting.advanced seconds).declares_of_exposes (free.advanced seconds) drives
  rw [lasting.declarations_advanced free.not_isSequence] at declares
  exact h.eq_of_declares hn hm declares (h.declares_of_exposes hm driven)

/-- In an orderly scheduler, the last value of the member that drove a channel is read,
unless a running member drives the channel again. -/
theorem Orderly.read_advance_of_retains (h : Orderly s) {m : Member α μ ι} (hm : m ∈ s.head)
    (driven : m.animation.exposes c = true) (retains : m.animation.Retains seconds c)
    (idle : (s.advance seconds).value.shows c = none) (fallback : PropertyValue α) :
    ((s.advance seconds).value.read c fallback).value.1 =
      ((m.animation.advanced seconds).reading c).value := by
  have ended := finished_of_shows_eq_none hm retains idle
  rcases exists_bequest_leavers hm retains ended with ⟨v, found⟩
  rcases exists_of_bequest_leavers found with ⟨n, hn, _, drives, rfl⟩
  rw [value_read_advance, idle, found, h.eq_of_exposes_advanced hm hn driven drives]
  rfl

/-- In an orderly scheduler, nobody who was running drives a channel once time has passed
that its driver did not retain. -/
theorem Orderly.exposes_advanced_of_not_retains (h : Orderly s) {m n : Member α μ ι}
    (hm : m ∈ s.head) (hn : n ∈ s.head) (driven : m.animation.exposes c = true)
    (drops : ¬m.animation.Retains seconds c) :
    (n.animation.advanced seconds).exposes c = false := by
  rw [← Bool.not_eq_true]
  intro drives
  rw [h.eq_of_exposes_advanced hm hn driven drives] at drives
  exact drops (Animation.exposes_advanced_iff.mp drives)

/-- In an orderly scheduler, what is read on a channel that its driver did not retain is what
the running group shows, or else what was kept before time passed. -/
theorem Orderly.read_advance_of_not_retains (h : Orderly s) {m : Member α μ ι}
    (hm : m ∈ s.head) (driven : m.animation.exposes c = true)
    (drops : ¬m.animation.Retains seconds c) (fallback : PropertyValue α) :
    ((s.advance seconds).value.read c fallback).value.1 =
      (((s.advance seconds).value.shows c).or (s.cache.find? c)).getD fallback := by
  have nothing : Group.bequest c (Group.leavers seconds s.head) = none := by
    rw [Option.eq_none_iff_forall_ne_some]
    intro v found
    rcases exists_of_bequest_leavers found with ⟨n, hn, _, drives, _⟩
    rw [h.exposes_advanced_of_not_retains hm hn driven drops] at drives
    exact Bool.false_ne_true drives
  rw [value_read_advance, nothing, Option.none_or]

/-- In an orderly scheduler, nobody in the running group drives a channel that its driver
did not retain, as long as the driver goes on. -/
theorem Orderly.not_exposes_advance_of_not_retains (h : Orderly s) {m : Member α μ ι}
    (hm : m ∈ s.head) (driven : m.animation.exposes c = true)
    (drops : ¬m.animation.Retains seconds c) (stays : (m.advanced seconds).finished = false) :
    ∀ n ∈ (s.advance seconds).value.head, n.animation.exposes c = false := by
  intro n' hn'
  rw [head_advance_of_stays hm stays] at hn'
  rcases Group.mem_survivors.mp hn' with ⟨⟨n, hn, rfl⟩, _⟩
  exact h.exposes_advanced_of_not_retains hm hn driven drops

/-- In an orderly scheduler, only a parallel does not retain what it drives. -/
theorem Orderly.exists_parallel_of_not_retains (h : Orderly s) {m : Member α μ ι}
    (hm : m ∈ s.head) (driven : m.animation.exposes c = true)
    (drops : ¬m.animation.Retains seconds c) :
    ∃ declared members, m.animation = .parallel declared members := by
  rcases h.lasting_of_mem_head hm with ⟨lasting, free⟩
  rcases m with ⟨id, a⟩
  cases free with
  | leaf listener body => exact absurd (lasting.retains_leaf driven) drops
  | parallel _ => exact ⟨_, _, rfl⟩

/-- A channel that a running member drives just before time passes can be read right
after.  When the member retains it, the value was produced while time passed, and
depends neither on what was kept nor on the fallback; without sequences, and with leaves
that declare the same for as long as they live, it is the last value of that member
unless a running member drives the channel again.  When the member does not retain the
channel, it is a parallel, those of its leaves that drove the channel are over, and what they
had last is lost: what is read is what was kept before, or else the fallback, unless the
member is over as well and somebody drives the channel in the group that runs then. -/
theorem run_read_advance (ops : List (Operation α μ ι)) (seconds : α) (c : Channel)
    {m : Member α μ ι} (hm : m ∈ (run ops).value.head) (driven : m.animation.exposes c = true) :
    let s := (run ops).value
    let s' := (s.advance seconds).value
    (m.animation.Retains seconds c → ∃ v, Produced s seconds c v ∧ ∀ cache fallback,
      (({ s with cache := cache }.advance seconds).value.read c fallback).value.1 = v) ∧
    ((∀ a ∈ Operation.added ops, a.Built Leaf.Steady ∧ a.SequenceFree) →
      (m.animation.Retains seconds c → (∀ n ∈ s'.head, n.animation.exposes c = false) →
        (m.advanced seconds).finished = true ∧ ∀ fallback,
          (s'.read c fallback).value.1 = ((m.animation.advanced seconds).reading c).value) ∧
      (¬m.animation.Retains seconds c →
        (∃ declared members, m.animation = .parallel declared members) ∧
        (∀ l ∈ m.animation.running, l.2.declarations.declares c = true →
          (l.2.advance seconds).finished = true) ∧
        ((m.advanced seconds).finished = false → ∀ n ∈ s'.head, n.animation.exposes c = false) ∧
        ∀ fallback, (s'.read c fallback).value.1 =
          ((s'.shows c).or (s.cache.find? c)).getD fallback)) := by
  intro s s'
  refine ⟨exists_produced hm, fun built => ?_⟩
  have orderly : Orderly s := orderly_run ops built
  constructor
  · intro retains idle
    have idle := shows_eq_none_iff.mpr idle
    exact ⟨finished_of_shows_eq_none hm retains idle,
      orderly.read_advance_of_retains hm driven retains idle⟩
  · intro drops
    exact ⟨orderly.exists_parallel_of_not_retains hm driven drops,
      fun l hl => (orderly.lasting_of_mem_head hm).1.finished_of_not_retains drops hl,
      orderly.not_exposes_advance_of_not_retains hm driven drops,
      orderly.read_advance_of_not_retains hm driven drops⟩

/-- A parallel that moves the camera for half a second and turns it for one. -/
def moveAndTurn : Animation Float (Ramp Float) Nat :=
  .together [.ramp 0 [.position] true true 0.5, .ramp 1 [.angle] true true 1]

/-- A parallel that has nothing but a turn of half a second. -/
def turnAlone : Animation Float (Ramp Float) Nat :=
  .together [.ramp 0 [.angle] true true 0.5]

/-- A parallel that zooms for half a second and then moves the camera. -/
def zoomThenMove : Animation Float (Ramp Float) Nat :=
  .together [.inTurn [.ramp 0 [.scale] true true 0.5, .ramp 1 [.position] true true 1]]

/-- A parallel of ramps is built from leaves that keep to what they declare, and has no
sequence in it. -/
private theorem built_together_ramps {whole : Animation Float (Ramp Float) Nat}
    {ramps : List (Animation Float (Ramp Float) Nat)} (same : whole = .together ramps)
    (ramp : ∀ m ∈ ramps, ∃ listener r, m = .leaf listener (.motion r)) :
    ∀ a ∈ Operation.added [.add whole false], a.Built Leaf.Steady ∧ a.SequenceFree := by
  intro a ha
  obtain rfl : a = whole := List.mem_singleton.mp ha
  rw [same]
  constructor
  · refine .together fun m hm => ?_
    rcases ramp m hm with ⟨listener, r, rfl⟩
    exact .leaf (Leaf.steady_ramp r)
  · refine .together fun m hm => ?_
    rcases ramp m hm with ⟨listener, r, rfl⟩
    exact .leaf _ _

/-- The move and the turn keep to what they declare. -/
private theorem built_moveAndTurn :
    ∀ a ∈ Operation.added [.add moveAndTurn false], a.Built Leaf.Steady ∧ a.SequenceFree := by
  refine built_together_ramps rfl fun m hm => ?_
  rcases List.mem_pair.mp hm with rfl | rfl <;> exact ⟨_, _, rfl⟩

/-- The turn keeps to what it declares. -/
private theorem built_turnAlone :
    ∀ a ∈ Operation.added [.add turnAlone false], a.Built Leaf.Steady ∧ a.SequenceFree := by
  refine built_together_ramps rfl fun m hm => ?_
  obtain rfl := List.mem_singleton.mp hm
  exact ⟨_, _, rfl⟩

/-- After half a second the first parallel goes on: its angle is read off it, and its
position is lost.  The second one is over then, and its angle is lost.  After a quarter of a
second the scale of the third one is read off the stage that runs in it. -/
theorem run_read_advance_moveAndTurn :
    (∃ v, Produced (run [.add moveAndTurn false]).value 0.5 ⟨.mapPlane, .angle⟩ v ∧
      ∀ cache fallback, (({ (run [.add moveAndTurn false]).value with
        cache := cache }.advance 0.5).value.read ⟨.mapPlane, .angle⟩ fallback).value.1 = v) ∧
    (∃ v, Produced (run [.add zoomThenMove false]).value 0.25 ⟨.mapPlane, .scale⟩ v ∧
      ∀ cache fallback, (({ (run [.add zoomThenMove false]).value with
        cache := cache }.advance 0.25).value.read ⟨.mapPlane, .scale⟩ fallback).value.1 = v) ∧
    (∀ fallback, (((run [.add moveAndTurn false]).value.advance 0.5).value.read
      ⟨.mapPlane, .position⟩ fallback).value.1 = fallback) ∧
    ∀ fallback, (((run [.add turnAlone false]).value.advance 0.5).value.read
      ⟨.mapPlane, .angle⟩ fallback).value.1 = fallback := by
  have running (a : Animation Float (Ramp Float) Nat) :
      ⟨0, a⟩ ∈ (run [.add a false]).value.head := List.mem_singleton_self _
  have turn : moveAndTurn.Retains 0.5 ⟨.mapPlane, .angle⟩ :=
    .part (m := .ramp 1 [.angle] true true 1) (by simp) (.leaf (by decide)) (by decide)
  have zoom : zoomThenMove.Retains 0.25 ⟨.mapPlane, .scale⟩ :=
    .part (List.mem_singleton_self _) (.stage (.leaf (by decide)) (.inr (by decide))) (by decide)
  have moved : ¬moveAndTurn.Retains 0.5 ⟨.mapPlane, .position⟩ := by
    rw [← Animation.exposes_advanced_iff]
    decide
  have turned : ¬turnAlone.Retains 0.5 ⟨.mapPlane, .angle⟩ := by
    rw [← Animation.exposes_advanced_iff]
    decide
  refine ⟨(run_read_advance _ 0.5 _ (running moveAndTurn) (by decide)).1 turn,
    (run_read_advance _ 0.25 _ (running zoomThenMove) (by decide)).1 zoom, fun fallback => ?_,
    fun fallback => ?_⟩
  · have lost := ((run_read_advance _ 0.5 _ (running moveAndTurn) (by decide)).2
      built_moveAndTurn).2 moved
    exact lost.2.2.2 fallback
  · have lost := ((run_read_advance _ 0.5 _ (running turnAlone) (by decide)).2
      built_turnAlone).2 turned
    exact lost.2.2.2 fallback

/-- The parallel moves the camera, and half a second later it is read where nobody moved
it: neither did the parallel go on to move it, nor was its last position kept. -/
theorem not_continuous_moveAndTurn :
    (∀ a ∈ Operation.added [.add moveAndTurn false], a.Built Leaf.Steady ∧ a.SequenceFree) ∧
      (∃ m ∈ (run [.add moveAndTurn false]).value.head,
        m.animation.exposes ⟨.mapPlane, .position⟩ = true) ∧
      ∀ fallback, (((run [.add moveAndTurn false]).value.advance 0.5).value.read
        ⟨.mapPlane, .position⟩ fallback).value.1 = fallback := by
  refine ⟨built_moveAndTurn, ⟨⟨0, moveAndTurn⟩, List.mem_singleton_self _, by decide⟩,
    fun fallback => ?_⟩
  have idle : ((run [.add moveAndTurn false]).value.advance 0.5).value.shows
      ⟨.mapPlane, .position⟩ = none := by decide
  have nothing : ((run [.add moveAndTurn false]).value.advance 0.5).value.cache.find?
      ⟨.mapPlane, .position⟩ = none := by decide
  rw [value_read_eq, idle, nothing]
  rfl

end Scheduler

end CameraMotion
