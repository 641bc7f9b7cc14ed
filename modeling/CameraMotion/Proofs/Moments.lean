import CameraMotion.Proofs.Tree
import CameraMotion.Scheduler.Frame

/-!
# What leaves notice

Of all that is logged while animations run, a leaf notices two kinds of things:
that it is told of a hook and that time passes in it.  Asking, reading and keeping
values is not noticed by anybody.

Main results:

- Theorem `Logged.moments_bind`: what is noticed in two steps is noticed in the
  first and then in the second.
- Theorems `Animation.moments_canShareGroup` and `Scheduler.moments_keep`: no leaf
  notices a mixing test or the keeping of values.
- Theorem `Animation.moments_tell`: a hook is noticed by the running leaves.
-/

namespace CameraMotion

/-- What a leaf can notice. -/
inductive Moment where
  | told (hook : Hook)
  | advanced
deriving DecidableEq, Repr

variable {α μ ι β γ : Type}

/-- Who notices an event, and as what. -/
def Event.moment? : Event α μ ι → Option (ι × Moment)
  | .told hook listener _ => some (listener, .told hook)
  | .advanced listener _ => some (listener, .advanced)
  | .breach _ => none
  | .fault _ => none

namespace Logged

/-- What is noticed during a computation, in order. -/
def moments (m : Logged (Event α μ ι) β) : List (ι × Moment) :=
  m.log.filterMap Event.moment?

/-- Nobody notices that a value is given. -/
@[simp]
theorem moments_pure (x : β) : (pure x : Logged (Event α μ ι) β).moments = [] :=
  rfl

/-- What is noticed in two steps is noticed in the first and then in the second. -/
@[simp]
theorem moments_bind (m : Logged (Event α μ ι) β) (f : β → Logged (Event α μ ι) γ) :
    (m >>= f).moments = m.moments ++ (f m.value).moments := by
  simp [moments]

/-- Nobody notices that a result is mapped. -/
@[simp]
theorem moments_map (f : β → γ) (m : Logged (Event α μ ι) β) :
    (f <$> m).moments = m.moments := by
  simp [moments]

/-- Of what is logged, hooks and passing time are noticed. -/
@[simp]
theorem moments_emit (events : List (Event α μ ι)) :
    (emit events).moments = events.filterMap Event.moment? :=
  rfl

/-- Nobody notices a test of several when nobody notices the single tests. -/
theorem moments_all {test : β → Logged (Event α μ ι) Bool}
    (quiet : ∀ x, (test x).moments = []) (xs : List β) : (all test xs).moments = [] := by
  induction xs with
  | nil => rfl
  | cons x xs ih =>
      cases h : (test x).value <;> simp [all, h, quiet x, ih]

end Logged

/-- Nobody notices that contracts are broken. -/
@[simp]
theorem Watched.moments_breaches (violations : List Violation) :
    (Watched.breaches violations : Watched α μ ι Unit).moments = [] := by
  simp [Watched.breaches, List.filterMap_map, Function.comp_def, Event.moment?]

namespace Leaf

variable [Motion α μ]

/-- Nobody notices that a leaf is asked for its properties. -/
@[simp]
theorem moments_properties (l : Leaf α μ) (o : Object) :
    (l.properties o : Watched α μ ι PropertySet).moments = [] := by
  cases l <;> simp [Leaf.properties]

/-- Nobody notices that a leaf is read. -/
@[simp]
theorem moments_reading [Scalar α] (l : Leaf α μ) (c : Channel) :
    (l.reading c : Watched α μ ι (PropertyValue α)).moments = [] := by
  cases l with
  | motion m => simp [Leaf.reading]
  | follow f =>
      cases h : f.reading? c.property <;> simp [Leaf.reading, h, Event.moment?]

end Leaf

namespace Animation

variable [Motion α μ]

/-- Nobody notices that an animation is asked for its properties. -/
@[simp]
theorem moments_properties (o : Object) (a : Animation α μ ι) :
    (a.properties o).moments = [] := by
  induction a with
  | leaf listener body => simp [properties]
  | parallel declared members ih => simp [properties]
  | sequence stages ih =>
      cases stages with
      | nil => simp [properties]
      | cons head rest => simpa [properties] using ih head (by simp)

/-- Nobody notices that an animation is asked whether it shares an object. -/
@[simp]
theorem moments_mixesOn (a : Animation α μ ι) (o : Object) (others : PropertySet) :
    (a.mixesOn o others).moments = [] := by
  cases h : a.mixable <;> simp [mixesOn, h]

/-- No leaf notices a mixing test. -/
@[simp]
theorem moments_canShareGroup (member candidate : Animation α μ ι) :
    (member.canShareGroup candidate).moments = [] := by
  refine Logged.moments_all (fun o => ?_) _
  simp only [Logged.moments_bind, moments_properties, moments_mixesOn, List.nil_append]
  split <;> simp

variable [Scalar α]

/-- Reading the first member that drives a channel is noticed no more than reading
any member is. -/
private theorem moments_firstReading? (c : Channel) {ms : List (Animation α μ ι)}
    (quiet : ∀ m ∈ ms, (m.reading c).moments = []) :
    ∀ value ∈ firstReading? c ms, value.moments = [] := by
  induction ms with
  | nil => simp [firstReading?]
  | cons m ms ih =>
      by_cases h : m.exposes c = true
      · simpa [firstReading?, h] using quiet m (by simp)
      · simpa [firstReading?, h] using ih fun m' hm' => quiet m' (by simp [hm'])

/-- Nobody notices that an animation is read. -/
@[simp]
theorem moments_reading (c : Channel) (a : Animation α μ ι) : (a.reading c).moments = [] := by
  induction a with
  | leaf listener body => simp [reading]
  | parallel declared members ih =>
      have quiet := moments_firstReading? c ih
      cases h : firstReading? c members with
      | none => simp [reading, h, Event.moment?]
      | some value => simpa [reading, h] using quiet value h
  | sequence stages ih =>
      cases stages with
      | nil => simp [reading, Event.moment?]
      | cons head rest => simpa [reading] using ih head (by simp)

/-- Nobody notices that the values of some properties are read. -/
@[simp]
theorem moments_snapshotProperties (a : Animation α μ ι) (o : Object) (ps : List Property) :
    (a.snapshotProperties o ps).moments = [] := by
  induction ps with
  | nil => rfl
  | cons p ps ih =>
      cases h : a.exposes ⟨o, p⟩ <;> simp [snapshotProperties, h, ih]

/-- Nobody notices that all values of an animation are read. -/
@[simp]
theorem moments_snapshot (a : Animation α μ ι) : a.snapshot.moments = [] := by
  rw [snapshot]
  induction a.declarations.objects with
  | nil => rfl
  | cons o os ih => simp [snapshotObjects, ih]

/-- A hook is noticed by the running leaves; a finish, as long as the animation is
over. -/
theorem moments_tell (hook : Hook) (a : Animation α μ ι)
    (ended : hook = .finish → a.finished = true) :
    (a.tell hook).moments = a.running.map fun l => (l.1, .told hook) := by
  simp [tell, hookEvents_eq hook a ended, List.filterMap_map, Function.comp_def, Event.moment?]

end Animation

namespace Scheduler

variable [Scalar α] [Motion α μ]

/-- No leaf notices that its values are kept. -/
@[simp]
theorem moments_keep (cache : Cache α) (a : Animation α μ ι) : (keep cache a).moments = [] := by
  simp [keep]

/-- Nobody notices a read. -/
@[simp]
theorem moments_read (s : Scheduler α μ ι) (c : Channel) (fallback : PropertyValue α) :
    (s.read c fallback).moments = [] := by
  unfold read
  split <;> simp

/-- Nobody notices that the visible part of the map plane is worked out. -/
@[simp]
theorem moments_rect (s : Scheduler α μ ι) (v : Viewport α) : (s.rect v).moments = [] := by
  simp [rect]

/-- Nobody notices that values are kept for somebody else. -/
@[simp]
theorem moments_save (s : Scheduler α μ ι) (a : Animation α μ ι) :
    (s.save a).moments = [] := by
  simp [save]

end Scheduler

end CameraMotion
