import CameraMotion.Proofs.Exclusivity
import CameraMotion.Proofs.Placement

/-!
# Continuity over insertions

An insertion does not change what is read on a channel that the new animation does not
drive, as far as the running group is concerned: what a running member showed there is
still shown, or was left behind when the member was removed.  A member that waits has
shown nothing yet; when it is removed, it leaves its values behind all the same.  Where
nobody drives the channel, such a value is read next, in place of what was kept.

Main results:

- Theorem `Scheduler.shows_add_or_bequest`: what the running group showed is still
  shown, or left behind.
- Theorem `Scheduler.run_read_add`: what is read right after an insertion.
-/

namespace CameraMotion.Scheduler

variable {α μ ι : Type} [Scalar α] [Motion α μ] {s : Scheduler α μ ι}

/-- Those of the running group that drive a channel and are gone in a later state
declare it and were alone in driving it. -/
def Sole (s later : Scheduler α μ ι) (c : Channel) : Prop :=
  ∀ m ∈ later.gone s.head, m.animation.exposes c = true →
    m.animation.declarations.declares c = true ∧
      ∀ n ∈ s.head, n.animation.exposes c = true → n = m

/-- After an insertion, the running group consists of those who stay in it, and of the
new animation if it was put there. -/
theorem head_add (h : Tidy s) (a : Animation α μ ι) (force : Bool) :
    ∃ joined : Group α μ ι, (∀ m ∈ joined, m.animation = a) ∧
      (s.add a force).value.head =
        s.head.filter ((s.add a force).value.isRunning ·.id) ++ joined := by
  have stay := map_stay_eq h a force
  have seated : (s.add a force).value.chain =
      seat ⟨s.nextId, a⟩ (s.chain.takeWhile (·.refuses a force)).length (s.room a force) := by
    rw [add_eq]
    rfl
  rw [head, seated, ← stay, head]
  rcases s.chain with _ | ⟨g, gs⟩
  · exact ⟨[⟨s.nextId, a⟩], by simp, rfl⟩
  · cases (List.takeWhile (·.refuses a force) (g :: gs)).length with
    | zero => exact ⟨[⟨s.nextId, a⟩], by simp, rfl⟩
    | succ i => exact ⟨[], by simp, by simp [seat]⟩

/-- After an insertion the running group shows on a channel that the new animation does not
drive what those of its members show who are still there. -/
theorem shows_add (h : Tidy s) {a : Animation α μ ι} {c : Channel}
    (undriven : a.exposes c = false) (force : Bool) :
    (s.add a force).value.shows c =
      ((s.head.filter ((s.add a force).value.isRunning ·.id)).find?
        (·.animation.exposes c)).map fun m => (m.animation.reading c).value := by
  rcases head_add h a force with ⟨joined, own, head⟩
  have idle : joined.find? (·.animation.exposes c) = none := by
    rw [List.find?_eq_none]
    intro m hm
    rw [own m hm, undriven]
    exact Bool.false_ne_true
  rw [shows, head, List.find?_append, idle, Option.or_none]

/-- What the running group showed on a channel that the new animation does not drive is
still shown, or was left behind by the member that showed it. -/
theorem shows_add_or_bequest (h : Tidy s) {a : Animation α μ ι} {c : Channel}
    (undriven : a.exposes c = false) (force : Bool) (sole : Sole s (s.add a force).value c) :
    ((s.add a force).value.shows c).or (Group.bequest c ((s.add a force).value.gone s.head)) =
      s.shows c := by
  rw [shows_add h undriven]
  cases found : s.head.find? (·.animation.exposes c) with
  | none =>
      rw [List.find?_eq_none] at found
      have idle : (s.head.filter ((s.add a force).value.isRunning ·.id)).find?
          (·.animation.exposes c) = none :=
        List.find?_eq_none.mpr fun m hm => found m (List.mem_of_mem_filter hm)
      have nothing : Group.bequest c ((s.add a force).value.gone s.head) = none := by
        refine Group.bequest_eq_none_iff.mpr fun m hm => Animation.bequest_eq_none_iff.mpr ?_
        exact fun left => found m (List.mem_of_mem_filter hm) left.2
      rw [idle, nothing, shows, List.find?_eq_none.mpr found]
      rfl
  | some m =>
      rcases List.find?_eq_some_iff_append.mp found with ⟨drives, before, after, split, idle⟩
      have hm : m ∈ s.head := by simp [split]
      rw [shows, found]
      cases stays : (s.add a force).value.isRunning m.id with
      | true =>
          -- Those who come before it do not drive the channel, whoever of them stays.
          have first : (s.head.filter ((s.add a force).value.isRunning ·.id)).find?
              (·.animation.exposes c) = some m := by
            rw [split, List.filter_append, List.filter_cons, if_pos stays]
            refine List.find?_eq_some_iff_append.mpr ⟨drives, _, _, rfl, fun n hn => ?_⟩
            exact idle n (List.mem_of_mem_filter hn)
          rw [first]
          rfl
      | false =>
          have goes : m ∈ (s.add a force).value.gone s.head :=
            List.mem_filter.mpr ⟨hm, by simp [stays]⟩
          rcases sole m goes drives with ⟨declares, alone⟩
          have none : (s.head.filter ((s.add a force).value.isRunning ·.id)).find?
              (·.animation.exposes c) = none := by
            refine List.find?_eq_none.mpr fun n hn drives' => ?_
            rcases List.mem_filter.mp hn with ⟨hn, stays'⟩
            rw [alone n hn drives', stays] at stays'
            exact Bool.false_ne_true stays'
          have left : Group.bequest c ((s.add a force).value.gone s.head) =
              some (m.animation.reading c).value := by
            refine Group.bequest_eq_some_of_alone goes
              (Animation.bequest_eq_some_iff.mpr ⟨⟨declares, drives⟩, rfl⟩) fun n hn left => ?_
            have both := not_not.mp (mt Animation.bequest_eq_none_iff.mpr left)
            exact alone n (List.mem_of_mem_filter hn) both.2
          rw [none, left]
          rfl

/-- What is read after an insertion is what the running group shows, or else what those
left behind who were removed, first from the running group and then from those that
wait, or else what was kept before. -/
theorem value_read_add (h : Tidy s) (a : Animation α μ ι) (force : Bool) (c : Channel)
    (fallback : PropertyValue α) :
    ((s.add a force).value.read c fallback).value.1 =
      (((s.add a force).value.shows c).or
        (((Group.bequest c ((s.add a force).value.gone s.chain.tail.flatten)).or
          (Group.bequest c ((s.add a force).value.gone s.head))).or
            (s.cache.find? c))).getD fallback := by
  have both : (s.add a force).value.gone s.members =
      (s.add a force).value.gone s.head ++ (s.add a force).value.gone s.chain.tail.flatten := by
    rw [gone, members_eq, List.filter_append]
    rfl
  rw [value_read_eq, cache_add, find?_keepAll, ← gone_add h, both, Group.bequest_append]

/-- In an orderly scheduler, a running member that drives a channel declares it and is alone
in driving it. -/
theorem Orderly.sole (h : Orderly s) (later : Scheduler α μ ι) (c : Channel) :
    Sole s later c := by
  intro m hm drives
  have hm := List.mem_of_mem_filter hm
  exact ⟨h.declares_of_exposes hm drives, fun n hn drives' => h.eq_of_exposes hm hn drives drives'⟩

/-- An insertion leaves what is read on a channel as it was when the new animation does
not drive the channel, unless a member of a group that waits is removed and leaves a
value there while no running member drives the channel; then that value is read, the
last one if there are several.  The members of the running group that are removed must
declare what they drive and be alone in driving it; so they do without sequences, and
with leaves that declare the same for as long as they live. -/
theorem run_read_add (ops : List (Operation α μ ι)) (a : Animation α μ ι) (force : Bool)
    (c : Channel) (undriven : a.exposes c = false) :
    let s := (run ops).value
    let s' := (s.add a force).value
    let unseen := Group.bequest c (s'.gone s.chain.tail.flatten)
    (Sole s s' c → (unseen = none ∨ ∃ m ∈ s'.head, m.animation.exposes c = true) →
      ∀ fallback, (s'.read c fallback).value.1 = (s.read c fallback).value.1) ∧
    (∀ v, unseen = some v → (∀ m ∈ s'.head, m.animation.exposes c = false) →
      ∀ fallback, (s'.read c fallback).value.1 = v) ∧
    ((∀ b ∈ Operation.added ops, b.Built Leaf.Steady ∧ b.SequenceFree) → Sole s s' c) := by
  intro s s' unseen
  have read : ∀ fallback, (s'.read c fallback).value.1 =
      ((s'.shows c).or ((unseen.or (Group.bequest c (s'.gone s.head))).or
        (s.cache.find? c))).getD fallback := value_read_add (tidy_run ops) a force c
  refine ⟨fun sole hidden fallback => ?_, fun v left idle fallback => ?_, fun built => ?_⟩
  · have shown := shows_add_or_bequest (tidy_run ops) undriven force sole
    rw [value_read_eq s, ← shown, read]
    rcases hidden with nothing | ⟨m, hm, drives⟩
    · rw [nothing, Option.none_or, Option.or_assoc]
    · cases still : s'.shows c with
      | some v => rfl
      | none =>
          rw [shows_eq_none_iff.mp still m hm] at drives
          exact absurd drives Bool.false_ne_true
  · rw [read, shows_eq_none_iff.mpr idle, left]
    rfl
  · exact (orderly_run ops built).sole s' c

/-- Somebody moves the camera for himself and is not to be interrupted; somebody else
waits to move it and to zoom. -/
def zoomWaits : List (Operation Float (Ramp Float) Nat) :=
  [.add (.ramp 0 [.position] false false 1) false,
    .add (.ramp 1 [.position, .scale] false true 1) false]

/-- Somebody moves the camera and zooms, and is half done. -/
def zoomRuns : List (Operation Float (Ramp Float) Nat) :=
  [.add (.ramp 0 [.position, .scale] false true 1) false, .advance 0.5]

/-- Another one wants to move the camera for himself. -/
def intrudingMove : Animation Float (Ramp Float) Nat :=
  .ramp 2 [.position] false true 1

/-- Those who move the camera and wait keep to what they declare. -/
private theorem built_zoomWaits :
    ∀ b ∈ Operation.added zoomWaits, b.Built Leaf.Steady ∧ b.SequenceFree := by
  intro b hb
  rcases List.mem_pair.mp hb with rfl | rfl <;> exact ⟨.leaf (Leaf.steady_ramp _), .leaf _ _⟩

/-- The one who moves the camera and zooms keeps to what it declares. -/
private theorem built_zoomRuns :
    ∀ b ∈ Operation.added zoomRuns, b.Built Leaf.Steady ∧ b.SequenceFree := by
  intro b hb
  obtain rfl := List.mem_singleton.mp hb
  exact ⟨.leaf (Leaf.steady_ramp _), .leaf _ _⟩

/-- Forcing somebody in who moves the camera leaves the scale as it was that was shown by the
one who has to go.  Beside somebody who waits the angle stays, which nobody drives, and the
scale is read off the one who waited. -/
theorem run_read_add_zoomWaits :
    (((run zoomRuns).value.shows ⟨.mapPlane, .scale⟩ = some (.scalar 0.5) ∧
      ((run zoomRuns).value.add intrudingMove true).value.groups = [[1]]) ∧
      ∀ fallback, (((run zoomRuns).value.add intrudingMove true).value.read
          ⟨.mapPlane, .scale⟩ fallback).value.1 =
        ((run zoomRuns).value.read ⟨.mapPlane, .scale⟩ fallback).value.1) ∧
    (∀ fallback, (((run zoomWaits).value.add intrudingMove true).value.read
        ⟨.mapPlane, .angle⟩ fallback).value.1 =
      ((run zoomWaits).value.read ⟨.mapPlane, .angle⟩ fallback).value.1) ∧
    ∀ fallback, (((run zoomWaits).value.add intrudingMove true).value.read
        ⟨.mapPlane, .scale⟩ fallback).value.1 = .scalar 0 := by
  refine ⟨⟨by decide, ?_⟩, ?_, ?_⟩
  · rcases run_read_add zoomRuns intrudingMove true ⟨.mapPlane, .scale⟩ (by decide) with
      ⟨same, _, sole⟩
    exact same (sole built_zoomRuns) (.inl (by decide))
  · rcases run_read_add zoomWaits intrudingMove true ⟨.mapPlane, .angle⟩ (by decide) with
      ⟨same, _, sole⟩
    exact same (sole built_zoomWaits) (.inl (by decide))
  · rcases run_read_add zoomWaits intrudingMove true ⟨.mapPlane, .scale⟩ (by decide) with
      ⟨_, jumps, _⟩
    exact jumps _ (by decide) (by decide)

/-- A parallel whose only member is a sequence that moves the camera and then zooms; it
zooms by now. -/
def zoomUndeclared : List (Operation Float (Ramp Float) Nat) :=
  [.add (.together [.inTurn
    [.ramp 0 [.position] true true 0.5, .ramp 1 [.scale] true true 1]]) false, .advance 0.5]

/-- A sequence that moves the camera and then turns it and zooms, beside somebody who
zooms all the time. -/
def zoomTwofold : List (Operation Float (Ramp Float) Nat) :=
  [.add (.inTurn [.ramp 0 [.position] true true 0.5, .ramp 1 [.scale, .angle] true true 1]) false,
    .add (.ramp 2 [.scale] true true 1) false, .advance 0.5]

/-- Somebody who wants to turn the camera, and may share it. -/
def intrudingTurn : Animation Float (Ramp Float) Nat :=
  .ramp 3 [.angle] true true 1

/-- The scale that is read may change though the new animation does not drive it.
Somebody is removed who waits, and a scale is read that was never shown.  Or somebody
is removed who zooms but does not declare it, and leaves no scale behind; or somebody
who was not alone in zooming, and the scale of the other one is read. -/
theorem not_continuous_zooms :
    (intrudingMove.exposes ⟨.mapPlane, .scale⟩ = false ∧
      ((run zoomWaits).value.read ⟨.mapPlane, .scale⟩ (.scalar 9)).value.1 = .scalar 9 ∧
      (((run zoomWaits).value.add intrudingMove true).value.read
        ⟨.mapPlane, .scale⟩ (.scalar 9)).value.1 = .scalar 0) ∧
    (((run zoomUndeclared).value.read ⟨.mapPlane, .scale⟩ (.scalar 9)).value.1 = .scalar 0 ∧
      (((run zoomUndeclared).value.add intrudingMove true).value.read
        ⟨.mapPlane, .scale⟩ (.scalar 9)).value.1 = .scalar 9) ∧
    intrudingTurn.exposes ⟨.mapPlane, .scale⟩ = false ∧
      ((run zoomTwofold).value.read ⟨.mapPlane, .scale⟩ (.scalar 9)).value.1 = .scalar 0 ∧
      (((run zoomTwofold).value.add intrudingTurn true).value.read
        ⟨.mapPlane, .scale⟩ (.scalar 9)).value.1 = .scalar 0.5 := by
  decide

end CameraMotion.Scheduler
