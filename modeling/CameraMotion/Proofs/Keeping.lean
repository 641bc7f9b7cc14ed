import CameraMotion.Proofs.Compatible

/-!
# What is left behind

An animation that goes leaves one value behind on every channel that it declares and
still drives, and nothing on any other channel.  When several go, one after the
other, what is kept for a channel is what the last of them left there; what was kept
before counts only where nobody left anything.

Main results:

- Theorem `Animation.value_snapshot`: a snapshot reads the shown channels, in order.
- Theorem `Animation.bequest_eq_some_iff`: what an animation leaves behind.
- Theorems `Scheduler.find?_keep` and `Scheduler.find?_keepAll`: what is found once one
  animation, or several, have left their values.
- Theorem `Scheduler.value_read_eq`: where a value that is read comes from.
-/

namespace CameraMotion

variable {α μ ι : Type}

/-- Values that are read off a function are found where they are stored, and
everything else stays. -/
theorem Cache.find?_storeAll_map (cache : Cache α) (f : Channel → PropertyValue α)
    (cs : List Channel) (c : Channel) :
    (cache.storeAll (cs.map fun d => (d, f d))).find? c =
      if c ∈ cs then some (f c) else cache.find? c := by
  induction cs generalizing cache with
  | nil => simp [storeAll]
  | cons d cs ih =>
      have ih := ih (cache.store d (f d))
      rw [storeAll] at ih
      rw [List.map_cons, storeAll, List.foldl_cons, ih, find?_store]
      by_cases later : c ∈ cs
      · simp [later]
      · by_cases here : c = d
        · simp [here]
        · simp [later, here]

namespace Animation

variable [Motion α μ]

/-- The channels that the animation declares and still drives, object after object. -/
def shown (a : Animation α μ ι) : List Channel :=
  a.declarations.objects.flatMap fun o =>
    ((a.declarations.on o).toList.filter fun p => a.exposes ⟨o, p⟩).map fun p => ⟨o, p⟩

/-- A channel is shown when it is declared and still driven. -/
theorem mem_shown {a : Animation α μ ι} {c : Channel} :
    c ∈ a.shown ↔ a.declarations.declares c = true ∧ a.exposes c = true := by
  rw [shown, List.mem_flatMap]
  constructor
  · rintro ⟨o, _, hc⟩
    rcases List.mem_map.mp hc with ⟨p, hp, rfl⟩
    rcases List.mem_filter.mp hp with ⟨declared, exposed⟩
    exact ⟨PropertySet.mem_toList.mp declared, exposed⟩
  · rintro ⟨declared, exposed⟩
    refine ⟨c.object, ?_, List.mem_map.mpr ⟨c.property, ?_, rfl⟩⟩
    · exact Declarations.mem_objects.mpr (Declarations.touches_of_declares declared)
    · exact List.mem_filter.mpr ⟨PropertySet.mem_toList.mpr declared, exposed⟩

variable [Scalar α]

/-- The values of some properties of an object are read where they are still driven. -/
theorem value_snapshotProperties (a : Animation α μ ι) (o : Object) (ps : List Property) :
    (a.snapshotProperties o ps).value =
      ((ps.filter fun p => a.exposes ⟨o, p⟩).map fun p => (⟨o, p⟩ : Channel)).map
        fun c => (c, (a.reading c).value) := by
  induction ps with
  | nil => rfl
  | cons p ps ih =>
      cases exposed : a.exposes ⟨o, p⟩ <;> simp [snapshotProperties, exposed, ih]

/-- A snapshot reads the shown channels, in order. -/
theorem value_snapshot (a : Animation α μ ι) :
    a.snapshot.value = a.shown.map fun c => (c, (a.reading c).value) := by
  rw [snapshot, shown]
  induction a.declarations.objects with
  | nil => rfl
  | cons o os ih =>
      simp only [snapshotObjects, Logged.value_bind, Logged.value_pure, value_properties,
        value_snapshotProperties, ih, List.flatMap_cons, List.map_append]

/-- The value that the animation leaves behind on a channel when it goes. -/
def bequest (c : Channel) (a : Animation α μ ι) : Option (PropertyValue α) :=
  if a.declarations.declares c && a.exposes c then some (a.reading c).value else none

/-- An animation leaves a value behind where it declares the channel and still drives
it. -/
theorem bequest_eq_some_iff {c : Channel} {a : Animation α μ ι} {v : PropertyValue α} :
    a.bequest c = some v ↔
      (a.declarations.declares c = true ∧ a.exposes c = true) ∧ (a.reading c).value = v := by
  simp [bequest]

/-- An animation leaves nothing behind on a channel that it does not declare or no longer
drives. -/
theorem bequest_eq_none_iff {c : Channel} {a : Animation α μ ι} :
    a.bequest c = none ↔ ¬(a.declarations.declares c = true ∧ a.exposes c = true) := by
  simp [bequest]

end Animation

namespace Group

variable [Motion α μ] [Scalar α]

/-- What several members that go one after the other leave behind on a channel: the
last one to leave something there decides. -/
def bequest (c : Channel) (ms : Group α μ ι) : Option (PropertyValue α) :=
  ms.reverse.findSome? (·.animation.bequest c)

/-- Where nobody goes nothing is left behind. -/
@[simp]
theorem bequest_nil (c : Channel) : bequest c ([] : Group α μ ι) = none :=
  rfl

/-- Of two groups that go one after the other, the second one decides where it leaves
something. -/
theorem bequest_append (c : Channel) (ms ns : Group α μ ι) :
    bequest c (ms ++ ns) = (bequest c ns).or (bequest c ms) := by
  rw [bequest, List.reverse_append, List.findSome?_append]
  rfl

/-- A single member leaves behind what its animation does. -/
theorem bequest_singleton (c : Channel) (m : Member α μ ι) :
    bequest c [m] = m.animation.bequest c := by
  cases h : m.animation.bequest c <;> simp [bequest, h]

/-- Nothing is left behind when nobody leaves anything. -/
theorem bequest_eq_none_iff {c : Channel} {ms : Group α μ ι} :
    bequest c ms = none ↔ ∀ m ∈ ms, m.animation.bequest c = none := by
  simp [bequest]

/-- Who decides is the last one to leave something, and those after leave nothing. -/
theorem bequest_eq_some_iff {c : Channel} {ms : Group α μ ι} {v : PropertyValue α} :
    bequest c ms = some v ↔
      ∃ before m after, ms = before ++ m :: after ∧ m.animation.bequest c = some v ∧
        ∀ n ∈ after, n.animation.bequest c = none := by
  rw [bequest, List.findSome?_eq_some_iff]
  constructor
  · rintro ⟨after, m, before, split, left, nothing⟩
    refine ⟨before.reverse, m, after.reverse, ?_, left, by simpa using nothing⟩
    simpa using congrArg List.reverse split
  · rintro ⟨before, m, after, rfl, left, nothing⟩
    exact ⟨after.reverse, m, before.reverse, by simp, left, by simpa using nothing⟩

/-- Somebody who alone leaves something decides. -/
theorem bequest_eq_some_of_alone {c : Channel} {ms : Group α μ ι} {m : Member α μ ι}
    {v : PropertyValue α} (hm : m ∈ ms) (left : m.animation.bequest c = some v)
    (alone : ∀ n ∈ ms, n.animation.bequest c ≠ none → n = m) : bequest c ms = some v := by
  cases found : bequest c ms with
  | none =>
      rw [bequest_eq_none_iff.mp found m hm] at left
      exact left
  | some w =>
      rcases bequest_eq_some_iff.mp found with ⟨before, n, after, rfl, decides, _⟩
      have same : n = m := alone n (by simp) (by simp [decides])
      rw [same] at decides
      exact decides.symm.trans left

end Group

namespace Scheduler

variable [Motion α μ] [Scalar α]

/-- What is found once an animation has left its values. -/
theorem find?_keep (cache : Cache α) (a : Animation α μ ι) (c : Channel) :
    (keep cache a).value.find? c = (a.bequest c).or (cache.find? c) := by
  simp only [keep, Logged.value_bind, Logged.value_pure, Animation.value_snapshot]
  rw [Cache.find?_storeAll_map cache fun d => (a.reading d).value]
  by_cases shown : a.declarations.declares c = true ∧ a.exposes c = true
  · rw [if_pos (Animation.mem_shown.mpr shown),
      Animation.bequest_eq_some_iff.mpr ⟨shown, rfl⟩, Option.some_or]
  · rw [if_neg (mt Animation.mem_shown.mp shown),
      Animation.bequest_eq_none_iff.mpr shown, Option.none_or]

/-- What is found once several members have left their values, one after the other. -/
theorem find?_keepAll (cache : Cache α) (ms : Group α μ ι) (c : Channel) :
    (keepAll cache ms).find? c = (Group.bequest c ms).or (cache.find? c) := by
  induction ms generalizing cache with
  | nil => simp
  | cons m ms ih =>
      rw [keepAll_cons, ih, find?_keep, ← Option.or_assoc, ← List.singleton_append,
        Group.bequest_append, Group.bequest_singleton]

/-! ## Reading -/

/-- The value that the running group shows on a channel. -/
def shows (s : Scheduler α μ ι) (c : Channel) : Option (PropertyValue α) :=
  (s.head.find? (·.animation.exposes c)).map fun m => (m.animation.reading c).value

/-- The running group shows nothing on a channel when none of its members drives it. -/
theorem shows_eq_none_iff {s : Scheduler α μ ι} {c : Channel} :
    s.shows c = none ↔ ∀ m ∈ s.head, m.animation.exposes c = false := by
  simp [shows]

/-- What the running group shows is the value of a member that drives the channel. -/
theorem exists_of_shows {s : Scheduler α μ ι} {c : Channel} {v : PropertyValue α}
    (h : s.shows c = some v) :
    ∃ m ∈ s.head, m.animation.exposes c = true ∧ (m.animation.reading c).value = v := by
  rcases Option.map_eq_some_iff.mp h with ⟨m, found, rfl⟩
  exact ⟨m, List.mem_of_find?_eq_some found, by simpa using List.find?_some found, rfl⟩

/-- Reading looks at the running group for a member that drives the channel. -/
theorem value_read (s : Scheduler α μ ι) (c : Channel) (fallback : PropertyValue α) :
    (s.read c fallback).value.1 =
      match s.head.find? (·.animation.exposes c) with
      | some m => (m.animation.reading c).value
      | none => (s.cache.find? c).getD fallback := by
  unfold read
  cases found : s.head.find? (·.animation.exposes c) with
  | none => rfl
  | some m => rfl

/-- What is read is what the running group shows, or else what is kept, or else the
fallback. -/
theorem value_read_eq (s : Scheduler α μ ι) (c : Channel) (fallback : PropertyValue α) :
    (s.read c fallback).value.1 = ((s.shows c).or (s.cache.find? c)).getD fallback := by
  rw [value_read, shows]
  cases found : s.head.find? (·.animation.exposes c) <;> rfl

end Scheduler

end CameraMotion
