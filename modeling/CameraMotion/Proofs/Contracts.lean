import CameraMotion.Proofs.Compatible
import CameraMotion.Proofs.Run

/-!
# Contracts are kept

Some questions are not allowed at every time: a parallel is asked for its properties
only on an object that it touches, a follow only about the map plane, a channel is read
only where it is driven, and time does not run backwards.  It is not plain that the
scheduler keeps to this: it asks two animations about each other's objects, it reads a
parallel some of whose members are gone, and it reads a sequence whose stage was promoted
a moment ago.  It does keep to it, for animations of any shape, and every read finds a
value.  So it makes no difference whether somebody watches for broken contracts and ends
the program at the first one.

Main results:

- Theorem `Logged.guarded_bind`: to end at the first broken contract is to do so in every
  step.
- Theorems `Animation.clean_properties` and `Animation.clean_reading`: who touches an
  object can be asked about it, and who drives a channel can be read there.
- Theorems `Scheduler.clean_add`, `Scheduler.clean_advance` and `Scheduler.clean_read`:
  a scheduler breaks no contract, as long as time does not run backwards.
-/

namespace CameraMotion

variable {α μ ι β γ : Type}

/-! ## Events in which nothing goes wrong -/

namespace Event

/-- Nothing went wrong: a leaf was told of a hook, or time passed in it. -/
def Harmless : Event α μ ι → Prop
  | .told _ _ _ => True
  | .advanced _ _ => True
  | .breach _ => False
  | .fault _ => False

/-- The broken contracts of two logs are those of the first one and then those of the
second. -/
@[simp]
theorem violations_append (before after : List (Event α μ ι)) :
    violations (before ++ after) = violations before ++ violations after := by
  simp [violations]

/-- No contract was broken when no event is a broken contract. -/
theorem violations_eq_nil_iff {log : List (Event α μ ι)} :
    violations log = [] ↔ ∀ e ∈ log, e.violation?.isNone = true := by
  simp [violations]

/-- No contract was broken where nothing went wrong. -/
theorem violations_of_harmless {log : List (Event α μ ι)} (h : ∀ e ∈ log, e.Harmless) :
    violations log = [] := by
  rw [violations_eq_nil_iff]
  intro e he
  cases e with
  | told | advanced | fault => rfl
  | breach v => exact (h _ he).elim

end Event

namespace Logged

/-! ## Guarded computations -/

/-- To give a value breaks no contract. -/
@[simp]
theorem guarded_pure (x : β) : (pure x : Logged (Event α μ ι) β).guarded = pure x :=
  rfl

/-- To break contracts is to end with the first of them. -/
theorem guarded_breaches (broken : List Violation) :
    (Watched.breaches broken : Watched α μ ι Unit).guarded =
      match broken with
      | [] => pure ()
      | v :: _ => throw v := by
  cases broken <;> rfl

/-- Who has a result goes on with it. -/
private theorem ok_bind (x : β) (log : List (Event α μ ι))
    (f : β → ExceptT Violation (Logged (Event α μ ι)) γ) :
    (.mk ⟨.ok x, log⟩ >>= f : ExceptT Violation (Logged (Event α μ ι)) γ) =
      .mk ⟨(f x).run.value, log ++ (f x).run.log⟩ :=
  rfl

/-- Who has failed does nothing more. -/
private theorem error_bind (v : Violation) (log : List (Event α μ ι))
    (f : β → ExceptT Violation (Logged (Event α μ ι)) γ) :
    (.mk ⟨.error v, log⟩ >>= f : ExceptT Violation (Logged (Event α μ ι)) γ) =
      .mk ⟨.error v, log⟩ :=
  congrArg (fun log => ExceptT.mk (Logged.mk (Except.error v) log)) (List.append_nil log)

/-- To end two steps at the first broken contract is to end each of them there. -/
theorem guarded_bind (m : Logged (Event α μ ι) β) (f : β → Logged (Event α μ ι) γ) :
    (m >>= f).guarded = m.guarded >>= fun x => (f x).guarded := by
  cases broken : Event.violations m.log with
  | nil =>
      have kept := Event.violations_eq_nil_iff.mp broken
      have here : m.guarded = .mk ⟨.ok m.value, m.log⟩ := by rw [guarded, broken]
      rw [here, ok_bind, guarded, guarded, log_bind, Event.violations_append, broken,
        List.nil_append, List.takeWhile_append_of_pos kept]
      cases Event.violations (f m.value).log <;> rfl
  | cons v vs =>
      -- The second step is never reached.
      have here : m.guarded = .mk ⟨.error v, m.log.takeWhile (·.violation?.isNone)⟩ := by
        rw [guarded, broken]
      have short : (m.log.takeWhile (·.violation?.isNone)).length ≠ m.log.length := by
        intro same
        have whole := (List.takeWhile_sublist _).eq_of_length same
        have kept := Event.violations_eq_nil_iff.mpr (List.takeWhile_eq_self_iff.mp whole)
        rw [broken] at kept
        exact List.cons_ne_nil v vs kept
      rw [here, error_bind, guarded, log_bind, Event.violations_append, broken, List.cons_append,
        List.takeWhile_append, if_neg short]

/-! ## Clean computations -/

/-- No contract was broken and no read failed. -/
def Clean (m : Logged (Event α μ ι) β) : Prop :=
  ∀ e ∈ m.log, e.Harmless

/-- A computation in which nothing went wrong is not stopped. -/
theorem Clean.guarded {m : Logged (Event α μ ι) β} (h : m.Clean) :
    m.guarded = .mk ⟨.ok m.value, m.log⟩ := by
  rw [Logged.guarded, Event.violations_of_harmless h]

/-- Nothing goes wrong where a value is given. -/
theorem clean_pure (x : β) : (pure x : Logged (Event α μ ι) β).Clean := by
  simp [Clean]

/-- Nothing goes wrong in two steps when it does in neither. -/
theorem Clean.bind {m : Logged (Event α μ ι) β} {f : β → Logged (Event α μ ι) γ} (h : m.Clean)
    (h' : (f m.value).Clean) : (m >>= f).Clean := by
  intro e he
  rcases List.mem_append.mp he with he | he
  · exact h e he
  · exact h' e he

/-- Nothing more goes wrong when the result is mapped. -/
theorem Clean.map {m : Logged (Event α μ ι) β} (h : m.Clean) (f : β → γ) :
    (f <$> m).Clean := by
  rw [Clean, log_map]
  exact h

/-- A contract that is kept is not broken. -/
theorem clean_unless {condition : Bool} (h : condition = true) (v : Violation) :
    (Watched.breaches (Violation.unless condition v) : Watched α μ ι Unit).Clean := by
  rw [Violation.unless_eq_nil.mpr h]
  simp [Clean]

/-- Nothing goes wrong in a test of several when it does in none of them. -/
theorem clean_all {test : β → Logged (Event α μ ι) Bool} {xs : List β}
    (h : ∀ x ∈ xs, (test x).Clean) : (all test xs).Clean := by
  induction xs with
  | nil => exact clean_pure true
  | cons x xs ih =>
      refine (h x (by simp)).bind ?_
      split
      · exact ih fun y hy => h y (List.mem_cons_of_mem _ hy)
      · exact clean_pure false

end Logged

open Logged

/-! ## Leaves -/

/-- The declarations of what touches one object touch that one only. -/
@[simp]
theorem Declarations.touches_single {o o' : Object} {s : PropertySet} :
    (single o s).touches o' = true ↔ o' = o := by
  by_cases h : o' = o <;> simp [single, touches, empty, h]

namespace Leaf

variable [Motion α μ]

/-- A leaf can be asked about an object that it touches. -/
theorem clean_properties {l : Leaf α μ} {o : Object} (h : l.declarations.touches o = true) :
    (l.properties o : Watched α μ ι PropertySet).Clean := by
  cases l with
  | motion m => exact clean_pure _
  | follow f =>
      have here : o = .mapPlane := Declarations.touches_single.mp h
      exact (clean_unless (by simp [here]) _).bind (clean_pure _)

/-- A leaf has a value where it drives. -/
theorem clean_reading [Scalar α] {l : Leaf α μ} {c : Channel}
    (h : l.declarations.declares c = true) :
    (l.reading c : Watched α μ ι (PropertyValue α)).Clean := by
  cases l with
  | motion m => exact clean_pure _
  | follow f =>
      have here : c.object = .mapPlane :=
        Declarations.touches_single.mp (Declarations.touches_of_declares h)
      refine (clean_unless (by simp [here]) _).bind ?_
      have driven : f.driven.contains c.property = true := by
        simpa [declarations, Follow.declarations, Declarations.declares, Declarations.on,
          Declarations.single, here] using h
      rcases Option.isSome_iff_exists.mp (Follow.reading?_isSome_iff.mpr driven) with
        ⟨value, found⟩
      rw [found]
      exact clean_pure value

end Leaf

namespace Animation

variable [Motion α μ]

/-! ## Questions to animations -/

/-- Who touches an object can be asked about it. -/
theorem clean_properties {a : Animation α μ ι} {o : Object} (h : a.touches o = true) :
    (a.properties o).Clean := by
  induction a with
  | leaf listener body =>
      rw [properties]
      exact Leaf.clean_properties h
  | parallel declared members ih =>
      rw [properties]
      exact (clean_unless h _).bind (clean_pure _)
  | sequence stages ih =>
      cases stages with
      | nil =>
          rw [properties]
          exact clean_pure _
      | cons head rest =>
          rw [properties]
          rw [touches] at h
          exact ih head (by simp) h

/-- An animation can be asked whether it shares an object that it touches. -/
theorem clean_mixesOn {a : Animation α μ ι} {o : Object} (h : a.touches o = true)
    (others : PropertySet) : (a.mixesOn o others).Clean := by
  rw [mixesOn]
  split
  · exact (clean_unless h _).bind ((clean_properties h).bind (clean_pure _))
  · exact clean_pure false

/-- Two animations are asked only about objects that both touch. -/
theorem clean_canShareGroup (member candidate : Animation α μ ι) :
    (member.canShareGroup candidate).Clean := by
  refine clean_all fun o ho => ?_
  rcases List.mem_filter.mp ho with ⟨own, theirs⟩
  have own : member.touches o = true := mem_objects.mp own
  refine (clean_properties theirs).bind ((clean_mixesOn own _).bind ?_)
  split
  · exact (clean_properties own).bind (clean_mixesOn theirs _)
  · exact clean_pure false

variable [Scalar α]

/-- Who drives a channel can be read there. -/
theorem clean_reading {a : Animation α μ ι} {c : Channel} (h : a.exposes c = true) :
    (a.reading c).Clean := by
  induction a with
  | leaf listener body =>
      rw [reading]
      exact Leaf.clean_reading (by simpa [exposes] using h)
  | parallel declared members ih =>
      rcases exists_member_of_exposes h with ⟨m, hm, here, same⟩
      rw [same]
      exact ih m hm here
  | sequence stages ih =>
      cases stages with
      | nil => simp [exposes] at h
      | cons head rest =>
          rw [exposes] at h
          rw [reading]
          exact ih head (by simp) h

/-- An animation is asked for the values of those properties only that it still drives. -/
private theorem clean_snapshotProperties (a : Animation α μ ι) (o : Object) (ps : List Property) :
    (a.snapshotProperties o ps).Clean := by
  induction ps with
  | nil => exact clean_pure []
  | cons p ps ih =>
      rw [snapshotProperties]
      split
      · rename_i driven
        exact (clean_reading driven).bind (ih.bind (clean_pure _))
      · exact ih

/-- An animation is asked for its values only where it drives. -/
theorem clean_snapshot (a : Animation α μ ι) : a.snapshot.Clean := by
  have touched : ∀ o ∈ a.declarations.objects, a.touches o = true :=
    fun o ho => mem_objects.mp ho
  rw [snapshot]
  generalize a.declarations.objects = os at touched
  induction os with
  | nil => exact clean_pure []
  | cons o os ih =>
      rw [snapshotObjects]
      refine (clean_properties (touched o (by simp))).bind ?_
      refine (clean_snapshotProperties a o _).bind ?_
      exact (ih fun o' ho' => touched o' (List.mem_cons_of_mem _ ho')).bind (clean_pure _)

/-! ## Running -/

omit [Motion α μ] [Scalar α] in
/-- Nothing goes wrong when a hook is called. -/
theorem clean_tell (hook : Hook) (a : Animation α μ ι) : (a.tell hook).Clean := by
  rw [Clean, tell, log_emit]
  induction a with
  | leaf listener body => simp [hookEvents, Event.Harmless]
  | parallel declared members ih =>
      cases hook with
      | finish => simp [hookEvents]
      | start | interrupt =>
          intro e he
          rw [hookEvents, hookEventsAll_eq] at he
          rcases List.mem_flatMap.mp he with ⟨m, hm, he⟩
          exact ih m hm e he
  | sequence stages ih =>
      cases stages with
      | nil => simp [hookEvents]
      | cons head rest =>
          rw [hookEvents]
          exact ih head (by simp)

/-- Nothing goes wrong while time passes in several members when it does in none of them. -/
private theorem clean_advanceMembers {seconds : α} {ms : List (Animation α μ ι)}
    (h : ∀ m ∈ ms, (m.advance seconds).Clean) : (advanceMembers seconds ms).Clean := by
  induction ms with
  | nil =>
      rw [advanceMembers]
      exact clean_pure []
  | cons m ms ih =>
      have later := ih fun n hn => h n (List.mem_cons_of_mem _ hn)
      rw [advanceMembers]
      refine (h m (by simp)).bind ?_
      split
      · exact (clean_tell _ _).bind later
      · exact later.bind (clean_pure _)

/-- Time may pass in every animation, as long as it does not run backwards. -/
theorem clean_advance {seconds : α} (forward : 0 ≤ seconds) (a : Animation α μ ι) :
    (a.advance seconds).Clean := by
  induction a with
  | leaf listener body =>
      have kept : body.advanceBreaches seconds = [] := by
        cases body with
        | motion m => rfl
        | follow f => simp [Leaf.advanceBreaches, Follow.advanceBreaches, Clock.advanceBreaches,
            forward]
      rw [advance, kept]
      refine Clean.bind (by simp [Clean]) (Clean.bind ?_ (clean_pure _))
      simp [Clean, Event.Harmless]
  | parallel declared members ih =>
      rw [advance]
      exact (clean_advanceMembers ih).bind (clean_pure _)
  | sequence stages ih =>
      rw [advance]
      refine Clean.bind ?_ (clean_pure _)
      cases stages with
      | nil =>
          rw [advanceStages]
          exact clean_pure []
      | cons head rest =>
          rw [advanceStages]
          refine (ih head (by simp)).bind ?_
          cases rest with
          | nil => exact clean_pure _
          | cons next later =>
              dsimp only
              split
              · exact (clean_tell _ _).bind ((clean_tell _ _).bind (clean_pure _))
              · exact clean_pure _

end Animation

namespace Scheduler

variable [Motion α μ] [Scalar α]

/-! ## Operations -/

/-- Nothing goes wrong when the values of an animation are kept. -/
theorem clean_keep (cache : Cache α) (a : Animation α μ ι) : (keep cache a).Clean :=
  a.clean_snapshot.bind (clean_pure _)

/-- Nothing goes wrong when the members of a group are asked to take an animation. -/
theorem clean_scan (candidate : Animation α μ ι) (force : Bool) (g : Group α μ ι)
    (cache : Cache α) : (scan candidate force g cache).Clean := by
  induction g generalizing cache with
  | nil => exact clean_pure _
  | cons m ms ih =>
      refine (Animation.clean_canShareGroup _ _).bind ?_
      split
      · exact (ih cache).bind (clean_pure _)
      · split
        · exact (Animation.clean_tell _ _).bind ((clean_keep _ _).bind (ih _))
        · exact clean_pure _

/-- Nothing goes wrong when a place is found for an animation. -/
theorem clean_place (new : Member α μ ι) (force : Bool) (chain : List (Group α μ ι))
    (cache : Cache α) : (place new force chain cache).Clean := by
  induction chain generalizing cache with
  | nil => exact (Animation.clean_tell _ _).bind (clean_pure _)
  | cons g gs ih =>
      refine (clean_scan _ _ _ _).bind ?_
      split
      · exact (Animation.clean_tell _ _).bind (clean_pure _)
      · exact (ih _).bind (clean_pure _)

/-- Nothing goes wrong when an animation is inserted. -/
theorem clean_add (s : Scheduler α μ ι) (a : Animation α μ ι) (force : Bool) :
    (s.add a force).Clean :=
  (clean_place _ _ _ _).bind (clean_pure _)

/-- Nothing goes wrong while time passes in a group, as long as it does not run backwards.
-/
theorem clean_advanceGroup {seconds : α} (forward : 0 ≤ seconds) (g : Group α μ ι)
    (cache : Cache α) : (advanceGroup seconds g cache).Clean := by
  induction g generalizing cache with
  | nil => exact clean_pure _
  | cons m ms ih =>
      refine (m.animation.clean_advance forward).bind ?_
      split
      · exact (Animation.clean_tell _ _).bind ((clean_keep _ _).bind (ih _))
      · exact (ih cache).bind (clean_pure _)

/-- Nothing goes wrong while time passes in the running group, as long as it does not run
backwards. -/
theorem clean_advance (s : Scheduler α μ ι) {seconds : α} (forward : 0 ≤ seconds) :
    (s.advance seconds).Clean := by
  rw [advance]
  split
  · exact clean_pure s
  · exact (clean_advanceGroup forward _ _).bind (clean_pure _)

/-- A member of the running group is read only where it drives. -/
theorem clean_read (s : Scheduler α μ ι) (c : Channel) (fallback : PropertyValue α) :
    (s.read c fallback).Clean := by
  rw [read]
  split
  · rename_i m found
    have driven : m.animation.exposes c = true := by simpa using List.find?_some found
    exact (Animation.clean_reading driven).bind (clean_pure _)
  · exact clean_pure _

/-- Nothing goes wrong when the visible part of the map plane is worked out. -/
theorem clean_rect (s : Scheduler α μ ι) (v : Viewport α) : (s.rect v).Clean :=
  (clean_read _ _ _).bind ((clean_read _ _ _).bind ((clean_read _ _ _).bind (clean_pure _)))

/-- Nothing goes wrong when the values of an animation from outside are kept. -/
theorem clean_save (s : Scheduler α μ ι) (a : Animation α μ ι) : (s.save a).Clean :=
  (clean_keep _ _).bind (clean_pure _)

end Scheduler

end CameraMotion
