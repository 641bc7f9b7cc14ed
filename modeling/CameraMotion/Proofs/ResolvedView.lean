import CameraMotion.Proofs.Kinds
import CameraMotion.Viewport.Mapped

/-!
# The view that the camera shows

The visible part of the map plane is worked out by the scheduler from what it reads for the
camera, and by a viewport from its own settings.  Both agree: what the scheduler works out
for a viewport is what that viewport shows once it is set to the values that the scheduler
has for the camera.  Working it out uses up what is kept for the camera where nobody drives
it, and changes nothing else.

Main results:

- Theorem `Scheduler.find?_read`: what a read uses up.
- Theorem `Scheduler.find?_readAll`: what several reads use up, one after the other.
- Theorem `Scheduler.rect_eq`: the visible part is made of three reads, which do not get in
  each other's way.
- Theorem `Scheduler.rect_resolved`: it is that of the viewport with the values set.
-/

namespace CameraMotion

variable {α μ ι : Type}

namespace Viewport

/-- The visible part of the map plane is worked out from the channels of the map plane. -/
theorem mem_requests_iff [Scalar α] (v : Viewport α) (c : Channel) :
    c ∈ v.requests.map Prod.fst ↔ c.object = .mapPlane := by
  rcases c with ⟨o, p⟩
  cases p <;> simp [requests, Channel.mk.injEq]

end Viewport

namespace Scheduler

variable [Scalar α] [Motion α μ]

/-! ## What is read -/

/-- The value that there is for a channel: what the running group shows, or else what is
kept. -/
def pending? (s : Scheduler α μ ι) (c : Channel) : Option (PropertyValue α) :=
  (s.shows c).or (s.cache.find? c)

/-- A scalar is read where a scalar is pending; otherwise the fallback stands. -/
theorem scalar_read (s : Scheduler α μ ι) (c : Channel) (x : α) :
    (s.read c (.scalar x)).value.1.scalar?.getD x =
      ((s.pending? c).bind PropertyValue.scalar?).getD x := by
  rw [value_read_eq, pending?]
  cases (s.shows c).or (s.cache.find? c) <;> rfl

/-- A point is read where a point is pending; otherwise the fallback stands. -/
theorem point_read (s : Scheduler α μ ι) (c : Channel) (p : Point α) :
    (s.read c (.point p)).value.1.point?.getD p =
      ((s.pending? c).bind PropertyValue.point?).getD p := by
  rw [value_read_eq, pending?]
  cases (s.shows c).or (s.cache.find? c) <;> rfl

/-! ## What is used up -/

/-- A read uses up what is kept for the channel if nobody drives it, and nothing else. -/
theorem find?_read (s : Scheduler α μ ι) (c d : Channel) (fallback : PropertyValue α) :
    (s.read c fallback).value.2.cache.find? d =
      if d = c ∧ s.shows d = none then none else s.cache.find? d := by
  by_cases same : d = c
  · subst same
    cases shown : s.shows d with
    | some v => simp [read_of_shows shown]
    | none => simp [read_of_shows_eq_none shown]
  · rcases read_others s c fallback with ⟨cache, others, eq⟩
    rw [eq, others d same, if_neg fun h => same h.1]

/-- Several reads leave the animations alone. -/
theorem readAll_eq (s : Scheduler α μ ι) (requests : List (Channel × PropertyValue α)) :
    s.readAll requests = { s with cache := (s.readAll requests).cache } := by
  induction requests generalizing s with
  | nil => rfl
  | cons r requests ih =>
      rcases read_others s r.1 r.2 with ⟨cache, _, eq⟩
      rw [readAll, List.foldl_cons, ← readAll, ih, eq]

/-- Several reads use up what is kept for their channels where nobody drives them, and
nothing else. -/
theorem find?_readAll (s : Scheduler α μ ι) (requests : List (Channel × PropertyValue α))
    (c : Channel) :
    (s.readAll requests).cache.find? c =
      if c ∈ requests.map Prod.fst ∧ s.shows c = none then none else s.cache.find? c := by
  induction requests generalizing s with
  | nil => simp [readAll]
  | cons r requests ih =>
      -- Who runs is the same after the first read.
      have running : (s.read r.1 r.2).value.2.shows c = s.shows c := by
        rw [shows, head, chain_read]
        rfl
      rw [readAll, List.foldl_cons, ← readAll, ih, running, find?_read]
      by_cases later : c ∈ requests.map Prod.fst ∧ s.shows c = none
      · simp [later]
      · rw [if_neg later]
        refine if_congr ?_ rfl rfl
        rw [List.map_cons, List.mem_cons, or_and_right, or_iff_left later]

/-! ## The visible part of the map plane -/

/-- The settings of a viewport with the values that are pending for the camera.  A setting
stays for which there is no value, or one of the wrong kind. -/
def settings (s : Scheduler α μ ι) (v : Viewport α) : List (Viewport.Change α) :=
  [.scale (((s.pending? ⟨.mapPlane, .scale⟩).bind PropertyValue.scalar?).getD v.scale),
    .angle (((s.pending? ⟨.mapPlane, .angle⟩).bind PropertyValue.scalar?).getD v.angle),
    .focus (((s.pending? ⟨.mapPlane, .position⟩).bind PropertyValue.point?).getD v.focus)]

/-- The visible part is made of three reads, which do not get in each other's way. -/
theorem rect_eq (s : Scheduler α μ ι) (v : Viewport α) :
    (s.rect v).value =
      (((s.settings v).foldl Viewport.Change.apply v).globalRect, s.readAll v.requests) := by
  have scale := s.scalar_read ⟨.mapPlane, .scale⟩ v.scale
  have angle := s.scalar_read ⟨.mapPlane, .angle⟩ v.angle
  have position := s.point_read ⟨.mapPlane, .position⟩ v.focus
  simp only [settings, ← scale, ← angle, ← position]
  simp [rect, value_read_read, readAll, Viewport.requests, Viewport.Change.apply,
    Viewport.globalRect]

/-- What is worked out for a viewport is what that viewport shows once its scale, its angle
and its focus are set to the values that are pending for the camera.  The kept values of the
map plane that nobody drives are used up by that, and nothing else changes.  When nobody
drives the map plane and nothing is kept for it, it is what the viewport shows as it is, and
nothing changes at all. -/
theorem rect_resolved {α μ ι : Type} [PlaneScalar α] [Motion α μ] (s : Scheduler α μ ι)
    (v : Viewport α) :
    (s.rect v).value.1 =
        ((s.settings v).foldl MappedViewport.change (.ofViewport v)).globalRect ∧
      (∃ cache, (s.rect v).value.2 = { s with cache := cache } ∧
        ∀ c, cache.find? c =
          if c.object = .mapPlane ∧ (∀ m ∈ s.head, m.animation.exposes c = false) then none
          else s.cache.find? c) ∧
      ((∀ p, (∀ m ∈ s.head, m.animation.exposes ⟨.mapPlane, p⟩ = false) ∧
          s.cache.find? ⟨.mapPlane, p⟩ = none) →
        (s.rect v).value = ((MappedViewport.ofViewport v).globalRect, s)) := by
  have left (c : Channel) : (s.readAll v.requests).cache.find? c =
      if c.object = .mapPlane ∧ (∀ m ∈ s.head, m.animation.exposes c = false) then none
      else s.cache.find? c := by
    simp only [find?_readAll, v.mem_requests_iff, shows_eq_none_iff]
  rw [rect_eq, MappedViewport.foldl_change]
  refine ⟨rfl, ⟨_, s.readAll_eq v.requests, left⟩, fun idle => ?_⟩
  have nothing (p : Property) : s.pending? ⟨.mapPlane, p⟩ = none := by
    rw [pending?, shows_eq_none_iff.mpr (idle p).1, (idle p).2]
    rfl
  have kept : (s.readAll v.requests).cache = s.cache := by
    refine Cache.ext_find? fun c => ?_
    rw [left c]
    split_ifs with undriven
    · rcases c with ⟨o, p⟩
      obtain rfl : o = .mapPlane := undriven.1
      exact (idle p).2.symm
    · rfl
  rw [s.readAll_eq, kept]
  simp [settings, nothing, Viewport.Change.apply, MappedViewport.globalRect]

/-- The camera zooms, and somebody has left an angle, and the position of a marker. -/
def zoomAfterTurn : List (Operation Float (Ramp Float) Nat) :=
  let marker : Animation Float (Ramp Float) Nat :=
    .leaf 1 (.motion ⟨.single .selection (.ofList [.position]), true, true, 1, 0, .point 0⟩)
  [.save (.ramp 0 [.angle] true true 1), .save marker, .add (.ramp 2 [.scale] true true 1) false,
    .advance 0.5]

/-- The camera shows a view at half the scale, turned by the angle that was left and around
the viewport's own focus.  The angle is gone then, and the marker's position is not.  Before
the first animation it shows the viewport as it is. -/
theorem rect_resolved_zoomAfterTurn :
    let s := (run zoomAfterTurn).value
    let v : Viewport Float := ⟨⟨0, ⟨640, 480⟩⟩, ⟨5, 7⟩, 1, 2⟩
    (s.rect v).value.1 = ⟨⟨5, 7⟩, 0, v.pixels.centered.scale (0 + 0.5)⟩ ∧
      (s.rect v).value.2.cache.channels = [⟨.selection, .position⟩] ∧
      (empty.rect v : Watched Float (Ramp Float) Nat _).value = (v.globalRect, empty) := by
  intro s v
  rcases rect_resolved s v with ⟨view, ⟨cache, left, found⟩, _⟩
  have settings : s.settings v = [.scale (0 + 0.5), .angle 0, .focus ⟨5, 7⟩] := by rfl
  refine ⟨?_, ?_, ?_⟩
  · rw [view, settings]
    rfl
  · rw [left]
    have kept (c : Channel) : (cache.find? c).isSome = (c == ⟨.selection, .position⟩) := by
      rw [found c]
      rcases c with ⟨_ | _ | _, _ | _ | _⟩ <;> rfl
    simp only [Cache.channels, kept]
    rfl
  · exact (rect_resolved empty v).2.2 fun p => ⟨by simp [empty, head], Cache.find?_empty _⟩

end Scheduler

end CameraMotion
