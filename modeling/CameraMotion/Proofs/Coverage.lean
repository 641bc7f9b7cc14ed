import CameraMotion.Proofs.Keeping
import CameraMotion.Proofs.Lasting
import CameraMotion.Proofs.Promotion
import CameraMotion.Proofs.Run
import CameraMotion.Proofs.SideBySide

/-!
# What a parallel covers

A parallel takes down what its members declare when they are put into it, and keeps to
that; but what it shows is whatever its members drive now.  A sequence somewhere in it may
go over to a stage that drives what nobody declared at the beginning.  Such a channel can
be read, but whoever tests for conflicts does not see it, and its value is not kept when
the parallel goes.

Main results:

- Theorem `Animation.exposes_advanced`: which channels are driven once time has passed: some
  that were driven before, and those that are gained by going over to another stage.
- Theorem `Animation.Within.covered_elapsed`: a parallel covers its members for good if it
  also covers the stages to come.
- Theorem `Animation.together_coverage`: a parallel covers its members all along exactly when
  it does so at the beginning and after every promotion.
-/

namespace CameraMotion

/-! ## Declarations that cover others -/

namespace Declarations

/-- What is touched or driven according to `e`, is so according to `d`. -/
structure Covers (d e : Declarations) : Prop where
  touches : ∀ o, e.touches o = true → d.touches o = true
  declares : ∀ c, e.declares c = true → d.declares c = true

/-- Any declarations cover those of what touches nothing. -/
theorem covers_empty (d : Declarations) : d.Covers .empty := by
  refine ⟨by simp, fun c drives => ?_⟩
  have touched := touches_of_declares drives
  simp at touched

end Declarations

namespace Animation

variable {α μ ι : Type} [Motion α μ]

/-- Everything that the animation touches, declares and drives right now is declared in
`d`. -/
structure Covered (d : Declarations) (a : Animation α μ ι) : Prop where
  declared : d.Covers a.declarations
  driven : ∀ c, a.exposes c = true → d.declares c = true

/-- What several animations touch and declare. -/
def unionAll (members : List (Animation α μ ι)) : Declarations :=
  members.foldl (fun d m => d.union m.declarations) .empty

/-- A union touches what some member touches. -/
theorem touches_unionAll {members : List (Animation α μ ι)} {o : Object} :
    (unionAll members).touches o = true ↔ ∃ m ∈ members, m.touches o = true := by
  induction members using List.reverseRecOn with
  | nil => simp [unionAll]
  | append_singleton members m ih =>
      rw [unionAll] at ih ⊢
      simp [ih, or_and_right, exists_or, touches_eq]

/-- A union declares what some member declares. -/
theorem declares_unionAll {members : List (Animation α μ ι)} {c : Channel} :
    (unionAll members).declares c = true ↔ ∃ m ∈ members, m.declarations.declares c = true := by
  induction members using List.reverseRecOn with
  | nil =>
      have none : Declarations.empty.declares c ≠ true := fun drives => by
        simpa using Declarations.touches_of_declares drives
      simpa [unionAll] using none
  | append_singleton members m ih =>
      rw [unionAll] at ih ⊢
      simp [ih, or_and_right, exists_or, Declarations.declares_union]

/-- A parallel declares what its members declare when they are put into it. -/
theorem together_eq (members : List (Animation α μ ι)) :
    together members = .parallel (unionAll members) members := by
  induction members using List.reverseRecOn with
  | nil => rfl
  | append_singleton members m ih =>
      rw [together] at ih
      rw [together, List.foldl_append, ih]
      simp [add, unionAll]

/-- A parallel declares the union of what its members declare. -/
theorem declarations_together (members : List (Animation α μ ι)) :
    (together members).declarations = unionAll members := by
  rw [together_eq, declarations]

/-- A union covers what each of its members declares. -/
theorem covers_unionAll {members : List (Animation α μ ι)} {m : Animation α μ ι}
    (hm : m ∈ members) : (unionAll members).Covers m.declarations :=
  ⟨fun o touched => touches_unionAll.mpr ⟨m, hm, (touches_eq o m).trans touched⟩,
    fun _ drives => declares_unionAll.mpr ⟨m, hm, drives⟩⟩

variable [Scalar α] {x : α} {c : Channel} {a : Animation α μ ι}

/-! ## Channels that are gained -/

/-- While time passes, the animation comes to drive a channel: a sequence in it goes over to
a stage that drives the channel, or a leaf drives it that did not do so before. -/
inductive Gains (x : α) (c : Channel) : Animation α μ ι → Prop where
  | leaf {listener : ι} {body : Leaf α μ} (before : body.declarations.declares c = false)
      (drives : (body.advance x).declarations.declares c = true) :
      Gains x c (.leaf listener body)
  | member {declared : Declarations} {members : List (Animation α μ ι)} {m : Animation α μ ι}
      (hm : m ∈ members) (gains : Gains x c m) (stays : (m.advanced x).finished = false) :
      Gains x c (.parallel declared members)
  | next {head next : Animation α μ ι} {later : List (Animation α μ ι)}
      (ended : (head.advanced x).finished = true) (drives : next.exposes c = true) :
      Gains x c (.sequence (head :: next :: later))
  | stage {head : Animation α μ ι} {rest : List (Animation α μ ι)} (gains : Gains x c head)
      (stays : rest = [] ∨ (head.advanced x).finished = false) :
      Gains x c (.sequence (head :: rest))

/-- A channel that is gained is driven once time has passed. -/
theorem Gains.exposes_advanced (h : a.Gains x c) : (a.advanced x).exposes c = true := by
  induction h with
  | leaf _ drives => simpa [exposes] using drives
  | member hm _ stays ih =>
      rw [advanced_parallel, exposes_parallel]
      exact ⟨_, mem_stayers.mpr ⟨⟨_, hm, rfl⟩, stays⟩, ih⟩
  | next ended drives => simpa [ended, exposes] using drives
  | @stage head rest _ stays ih =>
      rcases rest with _ | ⟨next, later⟩
      · simpa [exposes] using ih
      · have goes : (head.advanced x).finished = false := by simpa using stays
        simpa [goes, exposes] using ih

/-- Which channels are driven once time has passed: some that were driven before, and those
that are gained. -/
theorem exposes_advanced (drives : (a.advanced x).exposes c = true) :
    a.exposes c = true ∨ a.Gains x c := by
  induction a with
  | leaf listener body =>
      rw [advanced_leaf, exposes] at drives
      rw [exposes]
      cases before : body.declarations.declares c with
      | true => exact .inl rfl
      | false => exact .inr (.leaf before drives)
  | parallel declared members ih =>
      rw [advanced_parallel, exposes_parallel] at drives
      rcases drives with ⟨m, hm, drives⟩
      rcases mem_stayers.mp hm with ⟨⟨m₀, hm₀, rfl⟩, stays⟩
      refine (ih m₀ hm₀ drives).imp (fun before => ?_) fun gains => .member hm₀ gains stays
      exact exposes_parallel.mpr ⟨m₀, hm₀, before⟩
  | sequence stages ih =>
      rcases stages with _ | ⟨head, _ | ⟨next, later⟩⟩
      · rw [advanced_sequence_nil] at drives
        exact .inl drives
      · rw [advanced_sequence_single, exposes] at drives
        rw [exposes]
        exact (ih head (by simp) drives).imp_right fun gains => .stage gains (.inl rfl)
      · rw [advanced_sequence_cons_cons] at drives
        split at drives
        · next ended =>
            rw [exposes] at drives
            exact .inr (.next ended drives)
        · next goes =>
            rw [exposes] at drives ⊢
            refine (ih head (by simp) drives).imp_right fun gains => .stage gains (.inr ?_)
            simpa using goes

/-- Nobody gains a channel without promoting a stage or having a leaf that declares anew. -/
theorem Gains.not_settled (h : a.Gains x c) : ¬a.Settled x := by
  induction h with
  | leaf before drives =>
      intro settled
      have same := (settled.keeps _ (List.mem_singleton_self _ : _ ∈ [_])).1
      rw [same, before] at drives
      exact Bool.false_ne_true drives
  | member hm _ _ ih => exact fun settled => ih (settled.member hm)
  | next ended _ => exact fun settled => settled.stays (.next ended)
  | stage _ _ ih => exact fun settled => ih settled.head

/-- What is driven in the course of some steps is declared exactly when that is so at the
beginning, and of every channel that is gained later. -/
theorem driven_iff {d : Declarations} {steps : List α} :
    (∀ fewer, fewer <+: steps → ∀ c, (a.elapsed fewer).exposes c = true → d.declares c = true) ↔
      (∀ c, a.exposes c = true → d.declares c = true) ∧
        ∀ before x, before ++ [x] <+: steps → ∀ c, (a.elapsed before).Gains x c →
          d.declares c = true := by
  constructor
  · intro all
    refine ⟨all [] List.nil_prefix, fun before x pre c gains => ?_⟩
    refine all (before ++ [x]) pre c ?_
    rw [elapsed_append]
    exact gains.exposes_advanced
  · rintro ⟨first, gained⟩ fewer
    -- What is driven after one more step was driven before it, or is gained in it.
    induction fewer using List.reverseRecOn with
    | nil => exact fun _ => first
    | append_singleton before x ih =>
        intro pre c drives
        rw [elapsed_append] at drives
        rcases exposes_advanced drives with already | gains
        · exact ih ((List.prefix_append before [x]).trans pre) c already
        · exact gained before x pre c gains

/-! ## Stages to come -/

/-- All leaves are steady, and whatever is declared anywhere in the animation, now or when
its turn comes, is declared in `d`. -/
inductive Within (d : Declarations) : Animation α μ ι → Prop where
  | leaf {listener : ι} {body : Leaf α μ} (steady : body.Steady)
      (covers : d.Covers body.declarations) : Within d (.leaf listener body)
  | parallel {declared : Declarations} {members : List (Animation α μ ι)}
      (covers : d.Covers declared) (h : ∀ m ∈ members, Within d m) :
      Within d (.parallel declared members)
  | sequence {stages : List (Animation α μ ι)} (h : ∀ m ∈ stages, Within d m) :
      Within d (.sequence stages)

namespace Within

variable {d : Declarations}

/-- What stays within some declarations for good is covered by them now. -/
theorem covered (h : a.Within d) : a.Covered d := by
  induction h with
  | leaf _ covers => exact ⟨covers, covers.declares⟩
  | parallel covers _ ih =>
      refine ⟨covers, fun c drives => ?_⟩
      rcases exposes_parallel.mp drives with ⟨m, hm, drives⟩
      exact (ih m hm).driven c drives
  | @sequence stages _ ih =>
      cases stages with
      | nil => exact ⟨d.covers_empty, by simp [exposes]⟩
      | cons head rest =>
          have here := ih head (by simp)
          exact ⟨here.declared, fun c drives => here.driven c (by rwa [exposes] at drives)⟩

/-- What stays within some declarations does so after a step of time as well. -/
theorem advanced (h : a.Within d) (x : α) : (a.advanced x).Within d := by
  induction h with
  | @leaf listener body steady covers =>
      have later : body.Later (body.advance x) := .advance .refl x
      rw [advanced_leaf]
      exact .leaf (steady.later later) ((steady _ later).1 ▸ covers)
  | parallel covers _ ih =>
      rw [advanced_parallel]
      refine .parallel covers fun m hm => ?_
      rcases mem_stayers.mp hm with ⟨⟨m₀, hm₀, rfl⟩, _⟩
      exact ih m₀ hm₀
  | @sequence stages h ih =>
      rcases stages with _ | ⟨head, _ | ⟨next, later⟩⟩
      · simpa using Within.sequence h
      · rw [advanced_sequence_single]
        exact .sequence (by simpa using ih)
      · rw [advanced_sequence_cons_cons]
        have rest : ∀ m ∈ next :: later, m.Within d := fun m hm => h m (List.mem_cons_of_mem _ hm)
        split
        · exact .sequence rest
        · refine .sequence fun m hm => ?_
          rcases List.mem_cons.mp hm with rfl | hm
          · exact ih head (by simp)
          · exact rest m hm

/-- Who stays within some declarations is covered by them for good. -/
theorem covered_elapsed (h : a.Within d) (steps : List α) : (a.elapsed steps).Covered d := by
  induction steps generalizing a with
  | nil => exact h.covered
  | cons x steps ih => exact ih (h.advanced x)

end Within

/-! ## Members that are left -/

/-- The members of a parallel that are left after some steps. -/
def remaining (steps : List α) (members : List (Animation α μ ι)) : List (Animation α μ ι) :=
  (members.filter (·.outlasts steps)).map (·.elapsed steps)

variable {members : List (Animation α μ ι)} {steps : List α}

/-- Of a parallel the members stay that are left, and the declarations. -/
theorem elapsed_together (members : List (Animation α μ ι)) (steps : List α) :
    (together members).elapsed steps =
      .parallel (together members).declarations (remaining steps members) := by
  rw [declarations_together, together_eq, elapsed_parallel, remaining]

/-- All members are left at first. -/
theorem remaining_nil (members : List (Animation α μ ι)) : remaining [] members = members := by
  simp [remaining]

/-- After a step more those members are left that were left before and stay. -/
theorem remaining_concat (before : List α) (x : α) (members : List (Animation α μ ι)) :
    remaining (before ++ [x]) members = stayers x (remaining before members) := by
  have whole := elapsed_append before [x] (Animation.parallel .empty members)
  rw [elapsed_cons, elapsed_nil, elapsed_parallel, elapsed_parallel, advanced_parallel] at whole
  exact (parallel.inj whole).2

/-- Who is settled stays covered. -/
theorem Settled.covered {d : Declarations} (h : a.Settled x) (ha : a.Covered d) :
    (a.advanced x).Covered d := by
  refine ⟨h.advanced.1 ▸ ha.declared, fun c drives => ?_⟩
  rcases Animation.exposes_advanced drives with already | gains
  · exact ha.driven c already
  · exact absurd h gains.not_settled

/-- A parallel that covers the stages to come covers its members for good. -/
theorem covered_of_within (h : ∀ m ∈ members, m.Within (together members).declarations) :
    ∀ m ∈ remaining steps members, m.Covered (together members).declarations := by
  intro m hm
  rcases List.mem_map.mp hm with ⟨m₀, hm₀, rfl⟩
  exact (h m₀ (List.mem_filter.mp hm₀).1).covered_elapsed steps

omit [Scalar α] in
/-- At the beginning a parallel covers its members if each of them drives only what is
declared. -/
theorem covered_together_iff :
    (∀ m ∈ members, m.Covered (together members).declarations) ↔
      ∀ m ∈ members, ∀ c, m.exposes c = true → ∃ n ∈ members, n.declarations.declares c = true := by
  rw [declarations_together]
  constructor
  · exact fun all m hm c drives => declares_unionAll.mp ((all m hm).driven c drives)
  · exact fun drives m hm =>
      ⟨covers_unionAll hm, fun c here => declares_unionAll.mpr (drives m hm c here)⟩

/-- The members that are left are covered all along exactly when they are so at the
beginning and those who promote a stage, or have a leaf that declares anew, are covered
after that. -/
theorem covered_remaining_iff {d : Declarations} :
    (∀ fewer, fewer <+: steps → ∀ m ∈ remaining fewer members, m.Covered d) ↔
      (∀ m ∈ members, m.Covered d) ∧
        ∀ before x, before ++ [x] <+: steps → ∀ m ∈ remaining before members,
          (m.advanced x).finished = false → ¬m.Settled x → (m.advanced x).Covered d := by
  constructor
  · intro all
    refine ⟨remaining_nil members ▸ all [] List.nil_prefix, fun before x pre m hm stays _ => ?_⟩
    refine all (before ++ [x]) pre _ ?_
    rw [remaining_concat]
    exact mem_stayers.mpr ⟨⟨m, hm, rfl⟩, stays⟩
  · rintro ⟨first, anew⟩ fewer
    induction fewer using List.reverseRecOn with
    | nil => exact fun _ => (remaining_nil members).symm ▸ first
    | append_singleton before x ih =>
        intro pre m' hm'
        rw [remaining_concat] at hm'
        rcases mem_stayers.mp hm' with ⟨⟨m, hm, rfl⟩, stays⟩
        -- Only those who are not settled may declare or drive anything else than before.
        by_cases settled : m.Settled x
        · exact settled.covered (ih ((List.prefix_append before [x]).trans pre) m hm)
        · exact anew before x pre m hm stays settled

/-! ## Coverage -/

/-- Nobody misses that the animation drives a channel: it is touched and declared, its value
is kept when the animation goes, and nobody drives it who is found to be compatible. -/
structure Seen (c : Channel) (a : Animation α μ ι) : Prop where
  touched : a.touches c.object = true
  declared : a.declarations.declares c = true
  kept : (c, (a.reading c).value) ∈ a.snapshot.value
  apart : ∀ other : Animation α μ ι, (a.canShareGroup other).value = true →
    other.declarations.declares c = false

/-- A channel that is driven is seen if it is declared. -/
theorem seen_of_declares (drives : a.exposes c = true)
    (declared : a.declarations.declares c = true) : a.Seen c where
  touched := touches_of_declares declared
  declared := declared
  kept := by
    rw [value_snapshot]
    exact List.mem_map.mpr ⟨c, mem_shown.mpr ⟨declared, drives⟩, rfl⟩
  apart other shares := by
    rw [← Bool.not_eq_true]
    exact fun both => (canShareGroup_iff.mp shares).apart c ⟨declared, both⟩

/-- What a parallel declares and shows of its members in the course of some steps. -/
structure Coverage (members : List (Animation α μ ι)) (steps : List α) : Prop where
  /-- What the parallel declares was settled when its members were put into it; of the
  members those are left that outlast the steps. -/
  whole : (together members).elapsed steps =
    .parallel (together members).declarations (remaining steps members)
  touches : ∀ o, (together members).touches o = true ↔ ∃ m ∈ members, m.touches o = true
  declares : ∀ c, (together members).declarations.declares c = true ↔
    ∃ m ∈ members, m.declarations.declares c = true
  /-- The parallel covers its members all along exactly when they drive what is declared at
  the beginning, and those who promote a stage, or have a leaf that declares anew, are
  covered after that. -/
  covered : (∀ fewer, fewer <+: steps → ∀ m ∈ remaining fewer members,
      m.Covered (together members).declarations) ↔
    (∀ m ∈ members, ∀ c, m.exposes c = true → ∃ n ∈ members, n.declarations.declares c = true) ∧
      ∀ before x, before ++ [x] <+: steps → ∀ m ∈ remaining before members,
        (m.advanced x).finished = false → ¬m.Settled x →
          (m.advanced x).Covered (together members).declarations
  /-- The parallel drives nothing but what it declares all along exactly when that is so at
  the beginning, and of every channel that is gained later. -/
  driven : (∀ fewer, fewer <+: steps → ∀ c, ((together members).elapsed fewer).exposes c = true →
      (together members).declarations.declares c = true) ↔
    (∀ m ∈ members, ∀ c, m.exposes c = true → ∃ n ∈ members, n.declarations.declares c = true) ∧
      ∀ before x, before ++ [x] <+: steps → ∀ c, ((together members).elapsed before).Gains x c →
        (together members).declarations.declares c = true
  /-- A parallel covers its members if it covers their stages to come as well. -/
  within : (∀ m ∈ members, m.Within (together members).declarations) →
    ∀ m ∈ remaining steps members, m.Covered (together members).declarations
  /-- While it covers its members, nobody misses a channel that the parallel drives. -/
  seen : (∀ m ∈ remaining steps members, m.Covered (together members).declarations) →
    ∀ c, ((together members).elapsed steps).exposes c = true →
      ((together members).elapsed steps).Seen c

/-- A parallel covers its members all along exactly when it does so at the beginning and
after every promotion, and then nobody misses what it drives. -/
theorem together_coverage (members : List (Animation α μ ι)) (steps : List α) :
    Coverage members steps where
  whole := elapsed_together members steps
  touches o := by rw [touches_eq, declarations_together, touches_unionAll]
  declares c := by rw [declarations_together, declares_unionAll]
  covered := by rw [covered_remaining_iff, covered_together_iff]
  driven := by
    rw [driven_iff]
    refine and_congr_left fun _ => ?_
    rw [declarations_together, together_eq]
    simp only [exposes_parallel, declares_unionAll]
    constructor
    · exact fun all m hm c drives => all c ⟨m, hm, drives⟩
    · rintro all c ⟨m, hm, drives⟩
      exact all m hm c drives
  within := covered_of_within
  seen covered c drives := by
    refine seen_of_declares drives ?_
    rw [elapsed_together] at drives ⊢
    rcases exposes_parallel.mp drives with ⟨m, hm, drives⟩
    exact (covered m hm).driven c drives

/-- A sequence that moves the camera and then the selection, ... -/
def moveThenSelect : Animation Float (Ramp Float) Nat :=
  .inTurn [.ramp 0 [.position] true true 0.5, .leaf 1 (.motion
    ⟨.single .selection (.ofList [.position]), true, true, 1, 0, .point 0⟩)]

/-- ... and somebody who wants the selection for itself. -/
def selectAlone : Animation Float (Ramp Float) Nat :=
  .leaf 2 (.motion ⟨.single .selection (.ofList [.position]), false, true, 1, 0, .point 0⟩)

/-- Once the sequence has gone over to the selection, a parallel around it drives a channel
of an object that it does not touch: nothing is in its snapshot, somebody who wants the
object for itself is let in, and the scheduler does not know that the object is animated. -/
theorem not_covered_moveThenSelect :
    let whole := (together [moveThenSelect]).elapsed [0.5]
    (remaining [0.5] [moveThenSelect]).any (·.touches .selection) = true ∧
      whole.exposes ⟨.selection, .position⟩ = true ∧
      whole.touches .selection = false ∧
      whole.declarations.declares ⟨.selection, .position⟩ = false ∧
      whole.snapshot.value.length = 0 ∧ (whole.canShareGroup selectAlone).value = true ∧
      (Scheduler.run [.add (together [moveThenSelect]) false, .advance 0.5]).value.animates
        .selection = false := by
  decide

end Animation

end CameraMotion
