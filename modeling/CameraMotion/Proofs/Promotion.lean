import CameraMotion.Proofs.Compatible

/-!
# Promotion and exclusive groups

What a sequence declares, and whether it may share its objects, is up to the stage
that runs.  Nobody asks again when a stage gives way to the next one, so a member
of the running group can get in the way of another one in the middle of its life.
Promotion, at any depth, is the only way to that as long as leaves keep to what
they declare.

Main results:

- Theorem `Animation.Settled.advanced`: an animation that promotes no stage, and
  whose leaves keep to what they declare, declares the same after time has passed,
  and goes on to share its objects.
- Theorem `Scheduler.exclusive_advance_iff`: an exclusive running group stays
  exclusive exactly when those of its remaining members that have promoted a stage
  are compatible with the others anew.
-/

namespace CameraMotion

variable {α μ ι : Type} [Scalar α] [Motion α μ]

/-- While time passes, the leaf keeps to its declarations, and shares its objects if
it did so before. -/
def Leaf.Keeps (seconds : α) (l : Leaf α μ) : Prop :=
  (l.advance seconds).declarations = l.declarations ∧
    (l.mixable = true → (l.advance seconds).mixable = true)

namespace Animation

/-- While time passes, the animation, or a part of it that runs, goes over to its
next stage. -/
inductive Promotes (seconds : α) : Animation α μ ι → Prop where
  /-- The running stage is over, and there is one to come. -/
  | next {head next : Animation α μ ι} {later : List (Animation α μ ι)}
      (ended : (head.advanced seconds).finished = true) :
      Promotes seconds (.sequence (head :: next :: later))
  /-- The running stage promotes a stage of its own. -/
  | stage {head : Animation α μ ι} {rest : List (Animation α μ ι)}
      (h : Promotes seconds head) : Promotes seconds (.sequence (head :: rest))
  /-- A member promotes a stage. -/
  | member {declared : Declarations} {members : List (Animation α μ ι)}
      {m : Animation α μ ι} (hm : m ∈ members) (h : Promotes seconds m) :
      Promotes seconds (.parallel declared members)

/-- While time passes, no stage is promoted and no running leaf declares anew. -/
structure Settled (seconds : α) (a : Animation α μ ι) : Prop where
  stays : ¬a.Promotes seconds
  keeps : ∀ l ∈ a.running, l.2.Keeps seconds

/-- The members of a settled parallel are settled. -/
theorem Settled.member {seconds : α} {declared : Declarations}
    {members : List (Animation α μ ι)} (h : Settled seconds (.parallel declared members))
    {m : Animation α μ ι} (hm : m ∈ members) : m.Settled seconds := by
  constructor
  · intro promotes
    exact h.stays (.member hm promotes)
  · intro l hl
    apply h.keeps l
    rw [running_parallel]
    exact List.mem_flatMap.mpr ⟨m, hm, hl⟩

/-- The running stage of a settled sequence is settled. -/
theorem Settled.head {seconds : α} {head : Animation α μ ι} {rest : List (Animation α μ ι)}
    (h : Settled seconds (.sequence (head :: rest))) : head.Settled seconds := by
  constructor
  · intro promotes
    exact h.stays (.stage promotes)
  · intro l hl
    apply h.keeps l
    rwa [running_sequence_cons]

/-- A settled animation declares the same after time has passed, and goes on to share
its objects. -/
theorem Settled.advanced {seconds : α} {a : Animation α μ ι} (h : a.Settled seconds) :
    (a.advanced seconds).declarations = a.declarations ∧
      (a.mixable = true → (a.advanced seconds).mixable = true) := by
  induction a with
  | leaf listener body =>
      simpa [Leaf.Keeps, declarations, mixable] using h.keeps (listener, body) (by simp)
  | parallel declared members ih =>
      rw [advanced_parallel]
      constructor
      · rw [declarations, declarations]
      · intro shares
        rw [mixable, allMixable_eq, List.all_eq_true] at shares ⊢
        intro m hm
        rcases mem_stayers.mp hm with ⟨⟨m₀, hm₀, rfl⟩, _⟩
        have here := ih m₀ hm₀ (h.member hm₀)
        exact here.2 (shares m₀ hm₀)
  | sequence stages ih =>
      cases stages with
      | nil => simp
      | cons head rest =>
          have here := ih head (by simp) h.head
          cases rest with
          | nil => simpa [declarations, mixable] using here
          | cons next later =>
              have stays : (head.advanced seconds).finished = false := by
                rw [← Bool.not_eq_true]
                intro ended
                exact h.stays (.next ended)
              simpa [stays, declarations, mixable] using here

end Animation

namespace Scheduler

/-- An exclusive running group stays exclusive exactly when any two members that
remain, and of which one has promoted a stage or has a leaf that declares anew, are
compatible in the state that they have then. -/
theorem exclusive_advance_iff (s : Scheduler α μ ι) (seconds : α)
    (exclusive : s.head.Exclusive) :
    (s.advance seconds).value.chain =
        (if (Group.survivors seconds s.head).isEmpty then s.chain.tail
          else Group.survivors seconds s.head :: s.chain.tail) ∧
      (Group.Exclusive (Group.survivors seconds s.head) ↔
        s.head.Pairwise fun m n =>
          (m.advanced seconds).finished = false → (n.advanced seconds).finished = false →
          ¬(m.animation.Settled seconds ∧ n.animation.Settled seconds) →
            (m.advanced seconds).animation.Compatible (n.advanced seconds).animation) := by
  refine ⟨chain_advance s seconds, ?_⟩
  rw [Group.Exclusive, Group.survivors, List.pairwise_filter, List.pairwise_map]
  constructor
  · intro after
    refine after.imp fun compatible hm hn _ => ?_
    exact compatible (by simpa using hm) (by simpa using hn)
  · intro anew
    refine (exclusive.and anew).imp fun {m n} h hm hn => ?_
    rcases h with ⟨before, anew⟩
    by_cases settled : m.animation.Settled seconds ∧ n.animation.Settled seconds
    · -- Both are as compatible as they were before.
      rcases settled.1.advanced with ⟨dm, mm⟩
      rcases settled.2.advanced with ⟨dn, mn⟩
      exact before.of_unchanged dm mm dn mn
    · exact anew (by simpa using hm) (by simpa using hn) settled

/-- A sequence that moves the camera and then zooms, ... -/
def moveThenZoom : Animation Float (Ramp Float) Nat :=
  .inTurn [.ramp 0 [.position] true true 0.5, .ramp 1 [.scale] true true 1]

/-- ... and somebody who zooms beside it from the beginning. -/
def zoomedTwice : List (Operation Float (Ramp Float) Nat) :=
  [.add moveThenZoom false, .add (.ramp 2 [.scale] true true 1) false]

/-- The same beside somebody who turns the camera instead. -/
def zoomedAndTurned : List (Operation Float (Ramp Float) Nat) :=
  [.add moveThenZoom false, .add (.ramp 2 [.angle] true true 1) false]

/-- The sequence and the zoom run side by side. -/
private theorem head_run_zoomedTwice :
    (run zoomedTwice).value.head =
      [⟨0, moveThenZoom⟩, ⟨1, .ramp 2 [.scale] true true 1⟩] := by
  rfl

/-- The sequence and the turn run side by side. -/
private theorem head_run_zoomedAndTurned :
    (run zoomedAndTurned).value.head =
      [⟨0, moveThenZoom⟩, ⟨1, .ramp 2 [.angle] true true 1⟩] := by
  rfl

/-- After half a second the sequence goes over to its zoom. -/
private theorem promotes_moveThenZoom : moveThenZoom.Promotes 0.5 :=
  .next (by decide)

/-- When half a second has passed the sequence has been promoted to its zoom: it gets in the
way of somebody who zooms, and not of somebody who turns the camera. -/
theorem exclusive_advance_iff_zoomedTwice :
    moveThenZoom.Promotes 0.5 ∧
      ((run zoomedTwice).value.head.Exclusive ∧
        ¬Group.Exclusive (Group.survivors 0.5 (run zoomedTwice).value.head)) ∧
      (run zoomedAndTurned).value.head.Exclusive ∧
        Group.Exclusive (Group.survivors 0.5 (run zoomedAndTurned).value.head) := by
  have twice : (run zoomedTwice).value.head.Exclusive := by decide
  have turned : (run zoomedAndTurned).value.head.Exclusive := by decide
  refine ⟨promotes_moveThenZoom, ⟨twice, fun after => ?_⟩, turned, ?_⟩
  · have anew := (exclusive_advance_iff (run zoomedTwice).value 0.5 twice).2.mp after
    rw [head_run_zoomedTwice, List.pairwise_pair] at anew
    have unsettled : ¬(moveThenZoom.Settled 0.5 ∧
        (Animation.ramp 2 [.scale] true true 1).Settled 0.5) :=
      fun both => both.1.stays promotes_moveThenZoom
    exact absurd (anew (by decide) (by decide) unsettled) (by decide)
  · refine (exclusive_advance_iff (run zoomedAndTurned).value 0.5 turned).2.mpr ?_
    rw [head_run_zoomedAndTurned, List.pairwise_pair]
    exact fun _ _ _ => by decide

/-- Once the sequence is promoted to its zoom, both members zoom. -/
theorem not_exclusive_zoomedTwice :
    (run zoomedTwice).value.head.Exclusive ∧
      (∃ m ∈ (run zoomedTwice).value.head, m.animation.Promotes 0.5) ∧
      ((run zoomedTwice).value.advance 0.5).value.groups = [[0, 1]] ∧
      (∀ m ∈ ((run zoomedTwice).value.advance 0.5).value.head,
        m.animation.declarations.declares ⟨.mapPlane, .scale⟩ = true) ∧
      ¬((run zoomedTwice).value.advance 0.5).value.head.Exclusive := by
  refine ⟨by decide, ⟨⟨0, moveThenZoom⟩, ?_, promotes_moveThenZoom⟩, by decide, by decide,
    by decide⟩
  rw [head_run_zoomedTwice]
  exact List.mem_cons_self

end Scheduler

end CameraMotion
