import CameraMotion.Proofs.Advance

/-!
# Animations by themselves

What becomes of an animation that is played without a scheduler: for how many of the
steps it lasts, and how the steps of a parallel or a sequence are those of its parts.

Main results:

- Theorem `Animation.lasts_iff`: an animation lasts for some steps when it is over after
  all of them, and not before.
- Theorems `Animation.outlasts_iff` and `Animation.exists_lasts`: an animation outlasts some
  steps when it goes on after each of them, and otherwise lasts for the first few.
- Theorem `Animation.Lasts.members`: a parallel lasts for as long as one of its members,
  and no member lasts longer.
- Theorem `Animation.Lasts.stages`: a sequence lasts for as long as its running stage and
  then for as long as the later ones.
-/

namespace CameraMotion.Animation

variable {α μ ι : Type} [Scalar α] [Motion α μ]

/-! ## Steps of time -/

/-- What is logged in several steps is logged in the first one first. -/
theorem log_elapse_cons (x : α) (steps : List α) (a : Animation α μ ι) :
    (a.elapse (x :: steps)).log = (a.advance x).log ++ ((a.advanced x).elapse steps).log :=
  rfl

/-- Nothing is logged while no time passes. -/
theorem log_elapse_nil (a : Animation α μ ι) : (a.elapse []).log = [] :=
  rfl

/-- The log of a longer course goes on from where the shorter one ends. -/
theorem log_elapse_append (before after : List α) (a : Animation α μ ι) :
    (a.elapse (before ++ after)).log =
      (a.elapse before).log ++ ((a.elapsed before).elapse after).log := by
  induction before generalizing a with
  | nil => rfl
  | cons x steps ih => simp [log_elapse_cons, ih]

/-- A step more is logged last. -/
theorem log_elapse_concat (before : List α) (x : α) (a : Animation α μ ι) :
    (a.elapse (before ++ [x])).log =
      (a.elapse before).log ++ ((a.elapsed before).advance x).log := by
  rw [log_elapse_append, log_elapse_cons, log_elapse_nil, List.append_nil]

/-- Of a leaf the leaf is left, after all of the steps. -/
theorem elapsed_leaf (listener : ι) (body : Leaf α μ) (steps : List α) :
    (Animation.leaf listener body).elapsed steps = .leaf listener (steps.foldl Leaf.advance body) :=
  List.foldl_hom (Animation.leaf listener) fun body x => advanced_leaf x listener body

/-! ## How long an animation lasts -/

/-- The animation is over after the last one of these steps, and not before. -/
inductive Lasts : Animation α μ ι → List α → Prop where
  | ends {a : Animation α μ ι} {x : α} (ended : (a.advanced x).finished = true) : Lasts a [x]
  | goes {a : Animation α μ ι} {x : α} {steps : List α}
      (stays : (a.advanced x).finished = false) (rest : Lasts (a.advanced x) steps) :
      Lasts a (x :: steps)

variable {a : Animation α μ ι} {steps : List α}

/-- An animation lasts for some steps when it is over after all of them, and after no fewer.
-/
theorem lasts_iff :
    a.Lasts steps ↔ steps ≠ [] ∧ (a.elapsed steps).finished = true ∧
      ∀ fewer, fewer ≠ [] → fewer <+: steps → fewer ≠ steps →
        (a.elapsed fewer).finished = false := by
  constructor
  · intro h
    induction h with
    | ends ended =>
        refine ⟨by simp, ended, fun fewer some pre less => ?_⟩
        rcases List.prefix_cons_iff.mp pre with rfl | ⟨t, rfl, pre⟩
        · exact absurd rfl some
        · have none : t = [] := List.prefix_nil.mp ((List.prefix_cons_inj _).mp pre)
          exact absurd (congrArg _ none) less
    | goes stays _ ih =>
        refine ⟨by simp, ih.2.1, fun fewer some pre less => ?_⟩
        rcases List.prefix_cons_iff.mp pre with rfl | ⟨t, rfl, pre⟩
        · exact absurd rfl some
        · cases t with
          | nil => exact stays
          | cons y t =>
              exact ih.2.2 (y :: t) (by simp) ((List.prefix_cons_inj _).mp pre)
                fun same => less (congrArg _ same)
  · rintro ⟨some, ended, first⟩
    induction steps generalizing a with
    | nil => exact absurd rfl some
    | cons x steps ih =>
        cases steps with
        | nil => exact .ends ended
        | cons y steps =>
            have stays := first [x] (by simp) ⟨y :: steps, rfl⟩ (by simp)
            refine .goes stays (ih (by simp) ended fun fewer some pre less => ?_)
            refine first (x :: fewer) (by simp) ?_ fun same => less (List.cons.inj same).2
            exact (List.prefix_cons_inj x).mpr pre

/-- Who lasts for some steps is over after all of them, and goes on before the last one
unless that is the only one. -/
theorem Lasts.exists_concat (h : a.Lasts steps) :
    (a.elapsed steps).finished = true ∧
      ∃ before x, steps = before ++ [x] ∧
        (before = [] ∨ (a.elapsed before).finished = false) := by
  have facts := lasts_iff.mp h
  refine ⟨facts.2.1, steps.dropLast, steps.getLast facts.1,
    (List.dropLast_append_getLast facts.1).symm, ?_⟩
  refine or_iff_not_imp_left.mpr fun some => ?_
  refine facts.2.2 _ some (List.dropLast_prefix steps) fun same => ?_
  have shorter := congrArg List.length same
  rw [List.length_dropLast] at shorter
  have := List.length_pos_of_ne_nil facts.1
  omega

/-! ## Going on -/

/-- Whether the animation goes on after each of these steps. -/
def outlasts : List α → Animation α μ ι → Bool
  | [], _ => true
  | x :: steps, a => !(a.advanced x).finished && (a.advanced x).outlasts steps

/-- Every animation outlasts no time. -/
@[simp]
theorem outlasts_nil (a : Animation α μ ι) : a.outlasts [] = true :=
  rfl

/-- An animation outlasts several steps when it goes on after the first one and then
outlasts the others. -/
@[simp]
theorem outlasts_cons (x : α) (steps : List α) (a : Animation α μ ι) :
    a.outlasts (x :: steps) = (!(a.advanced x).finished && (a.advanced x).outlasts steps) :=
  rfl

/-- To outlast some steps is to go on after each of them. -/
theorem outlasts_iff :
    a.outlasts steps = true ↔
      ∀ fewer, fewer ≠ [] → fewer <+: steps → (a.elapsed fewer).finished = false := by
  induction steps generalizing a with
  | nil => simpa using fun fewer some none => absurd none some
  | cons x steps ih =>
      rw [outlasts_cons, Bool.and_eq_true, Bool.not_eq_true', ih]
      constructor
      · rintro ⟨stays, rest⟩ fewer some pre
        rcases List.prefix_cons_iff.mp pre with rfl | ⟨t, rfl, short⟩
        · exact absurd rfl some
        · cases t with
          | nil => exact stays
          | cons y t => exact rest (y :: t) (by simp) short
      · intro goes
        refine ⟨goes [x] (by simp) ⟨steps, rfl⟩, fun fewer _ pre => ?_⟩
        exact goes (x :: fewer) (by simp) ((List.prefix_cons_inj x).mpr pre)

/-- Who lasts for some steps does not outlast them, nor any further ones. -/
theorem Lasts.outlasts_append (h : a.Lasts block) (after : List α) :
    a.outlasts (block ++ after) = false := by
  induction h with
  | ends ended => simp [ended]
  | goes stays _ ih => simp [ih]

/-- Who does not outlast some steps lasts for the first few of them. -/
theorem exists_lasts (h : a.outlasts steps = false) :
    ∃ block after, steps = block ++ after ∧ a.Lasts block := by
  induction steps generalizing a with
  | nil => simp at h
  | cons x steps ih =>
      cases ended : (a.advanced x).finished with
      | true => exact ⟨[x], steps, rfl, .ends ended⟩
      | false =>
          have rest : (a.advanced x).outlasts steps = false := by simpa [ended] using h
          rcases ih rest with ⟨block, after, rfl, lasts⟩
          exact ⟨x :: block, after, rfl, .goes ended lasts⟩

/-- Nobody lasts for two different beginnings of the same steps. -/
theorem Lasts.unique {block other after later : List α} (h : a.Lasts block)
    (h' : a.Lasts other) (same : block ++ after = other ++ later) : block = other := by
  induction h generalizing other with
  | ends ended =>
      cases h' with
      | ends _ => rw [(List.cons.inj same).1]
      | goes stays _ =>
          obtain ⟨rfl, _⟩ := List.cons.inj same
          exact absurd (ended.symm.trans stays) (by simp)
  | goes stays _ ih =>
      cases h' with
      | ends ended =>
          obtain ⟨rfl, _⟩ := List.cons.inj same
          exact absurd (ended.symm.trans stays) (by simp)
      | goes _ rest =>
          obtain ⟨rfl, later⟩ := List.cons.inj same
          exact congrArg _ (ih rest later)

/-! ## Parallels -/

/-- A parallel lasts for as long as one of its members, and no member lasts longer. -/
theorem Lasts.members {declared : Declarations} {members : List (Animation α μ ι)}
    (h : (Animation.parallel declared members).Lasts steps) :
    (∀ m ∈ members, ∃ block, block <+: steps ∧ m.Lasts block) ∧
      (members ≠ [] → ∃ m ∈ members, m.Lasts steps) ∧
      (members = [] → steps.length = 1) := by
  generalize whole : Animation.parallel declared members = a at h
  induction h generalizing members with
  | @ends a x ended =>
      subst whole
      rw [advanced_parallel, finished_parallel, List.isEmpty_iff] at ended
      have here : ∀ m ∈ members, m.Lasts [x] := by
        intro m hm
        refine .ends ?_
        by_contra stays
        have left : m.advanced x ∈ stayers x members :=
          mem_stayers.mpr ⟨⟨m, hm, rfl⟩, by simpa using stays⟩
        rw [ended] at left
        exact absurd left List.not_mem_nil
      refine ⟨fun m hm => ⟨[x], List.prefix_rfl, here m hm⟩, fun some => ?_, fun _ => rfl⟩
      rcases List.exists_mem_of_ne_nil members some with ⟨m, hm⟩
      exact ⟨m, hm, here m hm⟩
  | @goes a x steps stays rest ih =>
      subst whole
      rw [advanced_parallel, finished_parallel, List.isEmpty_eq_false_iff] at stays
      rcases ih (advanced_parallel x declared members).symm with ⟨each, last, _⟩
      refine ⟨fun m hm => ?_, fun _ => ?_, fun none => ?_⟩
      · cases ended : (m.advanced x).finished with
        | true => exact ⟨[x], ⟨steps, rfl⟩, .ends ended⟩
        | false =>
            rcases each _ (mem_stayers.mpr ⟨⟨m, hm, rfl⟩, ended⟩) with ⟨block, pre, lasts⟩
            exact ⟨x :: block, (List.prefix_cons_inj x).mpr pre, .goes ended lasts⟩
      · rcases last stays with ⟨m', hm', lasts⟩
        rcases mem_stayers.mp hm' with ⟨⟨m, hm, rfl⟩, goes⟩
        exact ⟨m, hm, .goes goes lasts⟩
      · subst none
        exact absurd rfl stays

/-! ## Sequences -/

/-- A sequence with a single stage lasts for as long as that stage. -/
theorem Lasts.stage {last : Animation α μ ι} (h : (Animation.sequence [last]).Lasts steps) :
    last.Lasts steps := by
  generalize whole : Animation.sequence [last] = a at h
  induction h generalizing last with
  | ends ended =>
      subst whole
      rw [advanced_sequence_single, finished_sequence_single] at ended
      exact .ends ended
  | goes stays rest ih =>
      subst whole
      have ih := ih (advanced_sequence_single _ last).symm
      rw [advanced_sequence_single, finished_sequence_single] at stays
      exact .goes stays ih

/-- A sequence lasts for as long as its running stage, and then for as long as the later
ones, unless they are over when their turn comes. -/
theorem Lasts.stages {head next : Animation α μ ι} {later : List (Animation α μ ι)}
    (h : (Animation.sequence (head :: next :: later)).Lasts steps) :
    ∃ block rest, steps = block ++ rest ∧ head.Lasts block ∧
      ((rest = [] ∧ (Animation.sequence (next :: later)).finished = true) ∨
        (Animation.sequence (next :: later)).Lasts rest) := by
  generalize whole : Animation.sequence (head :: next :: later) = a at h
  induction h generalizing head with
  | @ends a x ended =>
      subst whole
      rw [advanced_sequence_cons_cons] at ended
      split at ended
      · next past => exact ⟨[x], [], rfl, .ends past, .inl ⟨rfl, ended⟩⟩
      · simp at ended
  | @goes a x steps stays rest ih =>
      subst whole
      rw [advanced_sequence_cons_cons] at rest ih
      split at rest
      · next past => exact ⟨[x], steps, rfl, .ends past, .inr rest⟩
      · next goes =>
          rw [if_neg goes] at ih
          rcases ih rfl with ⟨block, left, rfl, here, after⟩
          exact ⟨x :: block, left, rfl, .goes (by simpa using goes) here, after⟩

end CameraMotion.Animation
