import CameraMotion.Proofs.Run
import CameraMotion.Proofs.Tree

/-!
# Renaming listeners

Listeners are passed on and never looked at.  A run whose listeners are renamed does
the same, and logs the same under the new names.

Main results:

- Theorems `Animation.advance_rename` and `Animation.canShareGroup_rename`: what an
  animation does and answers does not depend on the names of its listeners.
- Theorem `Scheduler.run_rename`: nor does any run.
-/

namespace CameraMotion

variable {α μ ι κ β γ : Type}

/-! ## Logs -/

/-- The event with its listener renamed. -/
def Event.rename (f : ι → κ) : Event α μ ι → Event α μ κ
  | .told hook listener body => .told hook (f listener) body
  | .advanced listener body => .advanced (f listener) body
  | .breach violation => .breach violation
  | .fault cause => .fault cause

/-- The result carried over, and logged under new names. -/
def Watched.rename (f : ι → κ) (g : β → γ) (m : Watched α μ ι β) : Watched α μ κ γ :=
  ⟨g m.value, m.log.map (Event.rename f)⟩

namespace Watched

variable (f : ι → κ) (g : β → γ)

/-- The result is renamed by its own map. -/
@[simp]
theorem value_rename (m : Watched α μ ι β) : (m.rename f g).value = g m.value :=
  rfl

/-- The events are renamed one by one. -/
@[simp]
theorem log_rename (m : Watched α μ ι β) :
    (m.rename f g).log = m.log.map (Event.rename f) :=
  rfl

/-- Broken contracts name nobody. -/
@[simp]
theorem rename_breaches (violations : List Violation) :
    (Watched.breaches violations : Watched α μ ι Unit).rename f id =
      Watched.breaches violations := by
  ext1
  · rfl
  · simp [Event.rename, Function.comp_def]

end Watched

/-- A test that renames its log does so on all elements. -/
theorem Logged.all_rename (f : ι → κ) {test : β → Watched α μ ι Bool}
    {test' : β → Watched α μ κ Bool} (same : ∀ x, test' x = (test x).rename f id)
    (xs : List β) : Logged.all test' xs = Watched.rename f id (Logged.all test xs) := by
  induction xs with
  | nil => rfl
  | cons x xs ih =>
      cases h : (test x).value <;> ext1 <;> simp [Logged.all, same, h, ih]

namespace Leaf

variable [Motion α μ]

/-- The properties of a leaf do not depend on who listens. -/
theorem properties_rename (f : ι → κ) (l : Leaf α μ) (o : Object) :
    (l.properties o : Watched α μ κ PropertySet) = Watched.rename f id (l.properties o) := by
  cases l with
  | motion m => rfl
  | follow g => ext1 <;> simp [Leaf.properties, Event.rename, Function.comp_def]

/-- The value of a leaf does not depend on who listens. -/
theorem reading_rename [Scalar α] (f : ι → κ) (l : Leaf α μ) (c : Channel) :
    (l.reading c : Watched α μ κ (PropertyValue α)) = Watched.rename f id (l.reading c) := by
  cases l with
  | motion m => rfl
  | follow g =>
      cases h : g.reading? c.property <;> ext1 <;>
        simp [Leaf.reading, h, Event.rename, Function.comp_def]

end Leaf

/-! ## Animations -/

/-- Some mapped element passes a test when some element passes the test before the map. -/
private theorem any_map_of_mem {xs : List β} {g : β → γ} {p : γ → Bool} {q : β → Bool}
    (same : ∀ x ∈ xs, p (g x) = q x) : (xs.map g).any p = xs.any q := by
  induction xs with
  | nil => rfl
  | cons x xs ih =>
      simp [same x (by simp), ih fun y hy => same y (List.mem_cons_of_mem _ hy)]

/-- All mapped elements pass a test when all elements pass the test before the map. -/
private theorem all_map_of_mem {xs : List β} {g : β → γ} {p : γ → Bool} {q : β → Bool}
    (same : ∀ x ∈ xs, p (g x) = q x) : (xs.map g).all p = xs.all q := by
  have : (xs.map g).any (!p ·) = xs.any (!q ·) :=
    any_map_of_mem fun x hx => congrArg (!·) (same x hx)
  rw [List.all_eq_not_any_not, List.all_eq_not_any_not, this]

namespace Animation

mutual

/-- The animation with its listeners renamed. -/
def rename (f : ι → κ) : Animation α μ ι → Animation α μ κ
  | .leaf listener body => .leaf (f listener) body
  | .parallel declared members => .parallel declared (renameAll f members)
  | .sequence stages => .sequence (renameAll f stages)

def renameAll (f : ι → κ) : List (Animation α μ ι) → List (Animation α μ κ)
  | [] => []
  | m :: ms => m.rename f :: renameAll f ms

end

/-- Members are renamed one by one. -/
theorem renameAll_eq (f : ι → κ) (ms : List (Animation α μ ι)) :
    renameAll f ms = ms.map (rename f) := by
  induction ms with
  | nil => rfl
  | cons m ms ih => simp [renameAll, ih]

/-- The listener of a leaf is renamed. -/
@[simp]
theorem rename_leaf (f : ι → κ) (listener : ι) (body : Leaf α μ) :
    (Animation.leaf listener body).rename f = .leaf (f listener) body := by
  rw [rename]

/-- The members of a parallel are renamed. -/
@[simp]
theorem rename_parallel (f : ι → κ) (declared : Declarations)
    (members : List (Animation α μ ι)) :
    (Animation.parallel declared members).rename f =
      .parallel declared (members.map (rename f)) := by
  rw [rename, renameAll_eq]

/-- The stages of a sequence are renamed. -/
@[simp]
theorem rename_sequence (f : ι → κ) (stages : List (Animation α μ ι)) :
    (Animation.sequence stages).rename f = .sequence (stages.map (rename f)) := by
  rw [rename, renameAll_eq]

/-- Whoever is told of a hook is told so under the new name. -/
theorem hookEvents_rename (f : ι → κ) (hook : Hook) (a : Animation α μ ι) :
    (a.rename f).hookEvents hook = (a.hookEvents hook).map (Event.rename f) := by
  induction a with
  | leaf listener body => simp [hookEvents, Event.rename]
  | parallel declared members ih =>
      cases hook with
      | finish => simp [hookEvents]
      | start | interrupt =>
          simp only [rename_parallel, hookEvents, hookEventsAll_eq, List.flatMap_map,
            List.map_flatMap]
          exact List.flatMap_congr ih
  | sequence stages ih =>
      cases stages with
      | nil => simp [hookEvents]
      | cons head rest => simpa [hookEvents] using ih head (by simp)

/-- A hook reaches the renamed listeners. -/
@[simp]
theorem tell_rename (f : ι → κ) (hook : Hook) (a : Animation α μ ι) :
    (a.rename f).tell hook = (a.tell hook).rename f id := by
  ext1
  · rfl
  · simp [tell, hookEvents_rename]

variable [Motion α μ]

/-- Declarations do not depend on who listens. -/
@[simp]
theorem declarations_rename (f : ι → κ) (a : Animation α μ ι) :
    (a.rename f).declarations = a.declarations := by
  induction a with
  | leaf listener body => simp [declarations]
  | parallel declared members ih => simp [declarations]
  | sequence stages ih =>
      cases stages with
      | nil => simp [declarations]
      | cons head rest => simpa [declarations] using ih head (by simp)

/-- The touched objects do not depend on who listens. -/
@[simp]
theorem touches_rename (f : ι → κ) (a : Animation α μ ι) (o : Object) :
    (a.rename f).touches o = a.touches o := by
  rw [touches_eq, declarations_rename, touches_eq]

/-- The properties on an object do not depend on who listens. -/
@[simp]
theorem properties_animation_rename (f : ι → κ) (a : Animation α μ ι) (o : Object) :
    (a.rename f).properties o = (a.properties o).rename f id := by
  induction a with
  | leaf listener body => simpa [properties] using body.properties_rename f o
  | parallel declared members ih =>
      ext1 <;> simp [properties, Event.rename, Function.comp_def]
  | sequence stages ih =>
      cases stages with
      | nil => simp [properties]; rfl
      | cons head rest => simpa [properties] using ih head (by simp)

/-- The driven channels do not depend on who listens. -/
@[simp]
theorem exposes_rename (f : ι → κ) (a : Animation α μ ι) (c : Channel) :
    (a.rename f).exposes c = a.exposes c := by
  induction a with
  | leaf listener body => simp [exposes]
  | parallel declared members ih =>
      simp only [rename_parallel, exposes, exposesAny_eq]
      exact any_map_of_mem ih
  | sequence stages ih =>
      cases stages with
      | nil => simp [exposes]
      | cons head rest => simpa [exposes] using ih head (by simp)

/-- Whether an animation mixes does not depend on who listens. -/
@[simp]
theorem mixable_rename (f : ι → κ) (a : Animation α μ ι) :
    (a.rename f).mixable = a.mixable := by
  induction a with
  | leaf listener body => simp [mixable]
  | parallel declared members ih =>
      simp only [rename_parallel, mixable, allMixable_eq]
      exact all_map_of_mem ih
  | sequence stages ih =>
      cases stages with
      | nil => simp [mixable]
      | cons head rest => simpa [mixable] using ih head (by simp)

/-- Whether an animation may be interrupted does not depend on who listens. -/
@[simp]
theorem interruptible_rename (f : ι → κ) (a : Animation α μ ι) :
    (a.rename f).interruptible = a.interruptible := by
  induction a with
  | leaf listener body => simp [interruptible]
  | parallel declared members ih =>
      simp only [rename_parallel, interruptible, allInterruptible_eq]
      exact all_map_of_mem ih
  | sequence stages ih =>
      cases stages with
      | nil => simp [interruptible]
      | cons head rest => simpa [interruptible] using ih head (by simp)

/-- Whether an animation shares an object does not depend on who listens. -/
@[simp]
theorem mixesOn_rename (f : ι → κ) (a : Animation α μ ι) (o : Object) (others : PropertySet) :
    (a.rename f).mixesOn o others = (a.mixesOn o others).rename f id := by
  cases h : a.mixable <;> ext1 <;> simp [mixesOn, h, Event.rename, Function.comp_def]

/-- Whether two animations may run side by side does not depend on who listens. -/
@[simp]
theorem canShareGroup_rename (f : ι → κ) (member candidate : Animation α μ ι) :
    (member.rename f).canShareGroup (candidate.rename f) =
      (member.canShareGroup candidate).rename f id := by
  rw [canShareGroup, canShareGroup, declarations_rename]
  have touched : (candidate.rename f).touches = candidate.touches :=
    funext (touches_rename f candidate)
  rw [touched]
  refine Logged.all_rename f (fun o => ?_) _
  simp only [properties_animation_rename, mixesOn_rename]
  cases h : (member.mixesOn o (candidate.declarations.on o)).value <;> ext1 <;> simp [h]

variable [Scalar α]

/-- Whether an animation is over does not depend on who listens. -/
@[simp]
theorem finished_rename (f : ι → κ) (a : Animation α μ ι) :
    (a.rename f).finished = a.finished := by
  induction a with
  | leaf listener body => simp [finished]
  | parallel declared members ih => simp
  | sequence stages ih =>
      cases stages with
      | nil => simp [finished]
      | cons head rest =>
          cases rest with
          | nil => simpa using ih head (by simp)
          | cons next later => simp

/-- Of renamed members the same one is read first. -/
private theorem firstReading?_rename (f : ι → κ) (c : Channel) {ms : List (Animation α μ ι)}
    (same : ∀ m ∈ ms, (m.rename f).reading c = (m.reading c).rename f id) :
    firstReading? c (ms.map (rename f)) =
      (firstReading? c ms).map (Watched.rename f id) := by
  induction ms with
  | nil => rfl
  | cons m ms ih =>
      have ih := ih fun m' hm' => same m' (List.mem_cons_of_mem _ hm')
      cases h : m.exposes c <;> simp [firstReading?, h, ih, same m (by simp)]

/-- The value of a channel does not depend on who listens. -/
@[simp]
theorem reading_animation_rename (f : ι → κ) (a : Animation α μ ι) (c : Channel) :
    (a.rename f).reading c = (a.reading c).rename f id := by
  induction a with
  | leaf listener body => simpa [reading] using body.reading_rename f c
  | parallel declared members ih =>
      have first := firstReading?_rename f c ih
      cases h : firstReading? c members with
      | none => ext1 <;> simp [reading, first, h, Event.rename]
      | some value => simp [reading, first, h]
  | sequence stages ih =>
      cases stages with
      | nil => ext1 <;> simp [reading, Event.rename]
      | cons head rest => simpa [reading] using ih head (by simp)

/-- The values of some properties do not depend on who listens. -/
theorem snapshotProperties_rename (f : ι → κ) (a : Animation α μ ι) (o : Object)
    (ps : List Property) :
    (a.rename f).snapshotProperties o ps = (a.snapshotProperties o ps).rename f id := by
  induction ps with
  | nil => rfl
  | cons p ps ih =>
      cases h : a.exposes ⟨o, p⟩ <;> ext1 <;> simp [snapshotProperties, h, ih]

/-- The values of an animation do not depend on who listens. -/
@[simp]
theorem snapshot_rename (f : ι → κ) (a : Animation α μ ι) :
    (a.rename f).snapshot = a.snapshot.rename f id := by
  rw [snapshot, snapshot, declarations_rename]
  induction a.declarations.objects with
  | nil => rfl
  | cons o os ih => ext1 <;> simp [snapshotObjects, snapshotProperties_rename, ih]

/-- Time passes in renamed members as it does in the members. -/
private theorem advanceMembers_rename (f : ι → κ) (seconds : α) {ms : List (Animation α μ ι)}
    (same : ∀ m ∈ ms, (m.rename f).advance seconds = (m.advance seconds).rename f (rename f)) :
    advanceMembers seconds (ms.map (rename f)) =
      (advanceMembers seconds ms).rename f (List.map (rename f)) := by
  induction ms with
  | nil => rfl
  | cons m ms ih =>
      have here := same m (by simp)
      have ih := ih fun m' hm' => same m' (List.mem_cons_of_mem _ hm')
      cases ended : (m.advance seconds).value.finished <;> ext1 <;>
        simp [advanceMembers, here, ih, ended]

/-- Time passes in a renamed animation as it does in the animation. -/
@[simp]
theorem advance_rename (f : ι → κ) (seconds : α) (a : Animation α μ ι) :
    (a.rename f).advance seconds = (a.advance seconds).rename f (rename f) := by
  induction a with
  | leaf listener body => ext1 <;> simp [advance, Event.rename, Function.comp_def]
  | parallel declared members ih =>
      have together := advanceMembers_rename f seconds ih
      ext1 <;> simp [advance, together]
  | sequence stages ih =>
      cases stages with
      | nil => ext1 <;> simp [advance, advanceStages]
      | cons head rest =>
          have here := ih head (by simp)
          cases rest with
          | nil => ext1 <;> simp [advance, advanceStages, here]
          | cons next later =>
              cases ended : (head.advance seconds).value.finished <;> ext1 <;>
                simp [advance, advanceStages, here, ended]

end Animation

/-! ## The scheduler -/

/-- The member with the listeners of its animation renamed. -/
def Member.rename (f : ι → κ) (m : Member α μ ι) : Member α μ κ :=
  ⟨m.id, m.animation.rename f⟩

/-- A renamed member has the renamed animation. -/
@[simp]
theorem Member.animation_rename (f : ι → κ) (m : Member α μ ι) :
    (m.rename f).animation = m.animation.rename f :=
  rfl

/-- The operation with the listeners of its animation renamed. -/
def Operation.rename (f : ι → κ) : Operation α μ ι → Operation α μ κ
  | .add a force => .add (a.rename f) force
  | .advance seconds => .advance seconds
  | .read c fallback => .read c fallback
  | .rect v => .rect v
  | .save a => .save (a.rename f)
  | .clear => .clear

namespace Scheduler

/-- The scheduler with all listeners renamed. -/
def rename (f : ι → κ) (s : Scheduler α μ ι) : Scheduler α μ κ :=
  ⟨s.chain.map (·.map (Member.rename f)), s.cache, s.nextId⟩

variable [Scalar α] [Motion α μ]

/-- The same values are kept whoever listens. -/
@[simp]
theorem keep_rename (f : ι → κ) (cache : Cache α) (a : Animation α μ ι) :
    keep cache (a.rename f) = (keep cache a).rename f id := by
  ext1 <;> simp [keep]

/-- The same members are asked, removed and left whoever listens. -/
theorem scan_rename (f : ι → κ) (candidate : Animation α μ ι) (force : Bool)
    (g : Group α μ ι) (cache : Cache α) :
    scan (candidate.rename f) force (g.map (Member.rename f)) cache =
      (scan candidate force g cache).rename f
        fun found => ⟨found.accepted, found.kept.map (Member.rename f), found.cache⟩ := by
  induction g generalizing cache with
  | nil => rfl
  | cons m ms ih =>
      cases shares : (m.animation.canShareGroup candidate).value <;>
        cases removable : force && m.animation.interruptible <;> ext1 <;>
          simp [scan, shares, removable, ih, -Bool.and_eq_true]

/-- The same place is found whoever listens. -/
theorem place_rename (f : ι → κ) (new : Member α μ ι) (force : Bool)
    (chain : List (Group α μ ι)) (cache : Cache α) :
    place (new.rename f) force (chain.map (·.map (Member.rename f))) cache =
      (place new force chain cache).rename f
        fun found => (found.1.map (·.map (Member.rename f)), found.2) := by
  induction chain generalizing cache with
  | nil => ext1 <;> simp [place]
  | cons g gs ih =>
      have here := scan_rename f new.animation force g cache
      cases accepted : (scan new.animation force g cache).value.accepted <;> ext1 <;>
        simp [place, here, accepted, ih]

/-- An insertion does the same whoever listens. -/
@[simp]
theorem add_rename (f : ι → κ) (s : Scheduler α μ ι) (a : Animation α μ ι) (force : Bool) :
    (s.rename f).add (a.rename f) force = (s.add a force).rename f (rename f) := by
  have found := place_rename f ⟨s.nextId, a⟩ force s.chain s.cache
  rw [Member.rename] at found
  ext1 <;> simp [add, rename, found]

/-- Time passes in a group in the same way whoever listens. -/
theorem advanceGroup_rename (f : ι → κ) (seconds : α) (g : Group α μ ι) (cache : Cache α) :
    advanceGroup seconds (g.map (Member.rename f)) cache =
      (advanceGroup seconds g cache).rename f
        fun left => (left.1.map (Member.rename f), left.2) := by
  induction g generalizing cache with
  | nil => rfl
  | cons m ms ih =>
      cases ended : (m.animation.advance seconds).value.finished <;> ext1 <;>
        simp [advanceGroup, Member.rename, ended, ih]

/-- Time passes in the running group in the same way whoever listens. -/
@[simp]
theorem advance_rename (f : ι → κ) (s : Scheduler α μ ι) (seconds : α) :
    (s.rename f).advance seconds = (s.advance seconds).rename f (rename f) := by
  rcases s with ⟨_ | ⟨g, gs⟩, cache, nextId⟩
  · rfl
  · have left := advanceGroup_rename f seconds g cache
    by_cases nobody : (advanceGroup seconds g cache).value.1 = [] <;> ext1 <;>
      simp [advance, rename, left, nobody]

/-- The same value is read whoever listens. -/
@[simp]
theorem read_rename (f : ι → κ) (s : Scheduler α μ ι) (c : Channel)
    (fallback : PropertyValue α) :
    (s.rename f).read c fallback =
      (s.read c fallback).rename f fun found => (found.1, found.2.rename f) := by
  have head : (s.rename f).head = s.head.map (Member.rename f) := by
    rcases s with ⟨_ | ⟨g, gs⟩, cache, nextId⟩ <;> rfl
  have driver : (s.rename f).head.find? (·.animation.exposes c) =
      (s.head.find? (·.animation.exposes c)).map (Member.rename f) := by
    rw [head, List.find?_map]
    simp [Function.comp_def]
  unfold read
  rw [driver]
  cases s.head.find? (·.animation.exposes c) with
  | none => rfl
  | some m => ext1 <;> simp

/-- The same part of the map plane is visible whoever listens. -/
@[simp]
theorem rect_rename (f : ι → κ) (s : Scheduler α μ ι) (v : Viewport α) :
    (s.rename f).rect v = (s.rect v).rename f fun found => (found.1, found.2.rename f) := by
  ext1 <;> simp [rect]

/-- The same values are kept for somebody else whoever listens. -/
@[simp]
theorem save_rename (f : ι → κ) (s : Scheduler α μ ι) (a : Animation α μ ι) :
    (s.rename f).save (a.rename f) = (s.save a).rename f (rename f) := by
  ext1 <;> simp [save, rename]

/-- One operation does the same under new names. -/
theorem step_rename (f : ι → κ) (s : Scheduler α μ ι) (op : Operation α μ ι) :
    (s.rename f).step (op.rename f) = (s.step op).rename f (rename f) := by
  cases op with
  | add a force => exact add_rename f s a force
  | advance seconds => exact advance_rename f s seconds
  | read c fallback => ext1 <;> simp [step, Operation.rename]
  | rect v => ext1 <;> simp [step, Operation.rename]
  | save a => exact save_rename f s a
  | clear => rfl

/-- Several operations do the same whoever listens. -/
theorem runFrom_rename (f : ι → κ) (s : Scheduler α μ ι) (ops : List (Operation α μ ι)) :
    (s.rename f).runFrom (ops.map (Operation.rename f)) =
      (s.runFrom ops).rename f (rename f) := by
  induction ops generalizing s with
  | nil => rfl
  | cons op ops ih => ext1 <;> simp [runFrom, step_rename, ih]

/-- A run whose listeners are renamed does the same, and logs the same under the new
names. -/
theorem run_rename (f : ι → κ) (ops : List (Operation α μ ι)) :
    run (ops.map (Operation.rename f)) = (run ops).rename f (rename f) :=
  runFrom_rename f .empty ops

end Scheduler

end CameraMotion
