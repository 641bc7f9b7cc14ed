import CameraMotion.Proofs.Scan

/-!
# Compatible animations

Two animations are compatible when they may share every object that both touch and
drive no channel in common.

Main results:

- Theorem `Animation.canShareGroup_iff`: the mixing test finds out whether two
  animations are compatible.
- Theorem `Animation.Compatible.symm`: it does not matter who asks whom.
- Theorem `Animation.compatible_iff_disjoint`: compatibility, object by object.
-/

namespace CameraMotion

variable {α μ ι : Type} [Motion α μ]

namespace Animation

/-- Two animations that may run side by side. -/
structure Compatible (a b : Animation α μ ι) : Prop where
  /-- On an object that both touch, both are willing to share. -/
  mixable : ∀ o, a.touches o = true → b.touches o = true →
    a.mixable = true ∧ b.mixable = true
  /-- No channel is driven by both. -/
  apart : ∀ c, ¬(a.declarations.declares c = true ∧ b.declarations.declares c = true)

/-- It does not matter who is asked about whom. -/
theorem Compatible.symm {a b : Animation α μ ι} (h : a.Compatible b) : b.Compatible a :=
  ⟨fun o hb ha => (h.mixable o ha hb).symm, fun c hc => h.apart c hc.symm⟩

/-- Two animations stay compatible while they declare the same and stay mixable. -/
theorem Compatible.of_unchanged {a b a' b' : Animation α μ ι} (h : a.Compatible b)
    (da : a'.declarations = a.declarations) (ma : a.mixable = true → a'.mixable = true)
    (db : b'.declarations = b.declarations) (mb : b.mixable = true → b'.mixable = true) :
    a'.Compatible b' := by
  constructor
  · intro o hoa hob
    rw [touches_eq, da, ← touches_eq] at hoa
    rw [touches_eq, db, ← touches_eq] at hob
    rcases h.mixable o hoa hob with ⟨hma, hmb⟩
    exact ⟨ma hma, mb hmb⟩
  · intro c
    rw [da, db]
    exact h.apart c

/-- Two animations are compatible when, on every object that both touch, both are
mixable and drive no property in common. -/
theorem compatible_iff_disjoint {a b : Animation α μ ι} :
    a.Compatible b ↔ ∀ o, a.touches o = true → b.touches o = true →
      a.mixable = true ∧ b.mixable = true ∧
        (a.declarations.on o).disjoint (b.declarations.on o) = true := by
  constructor
  · intro h o ha hb
    rcases h.mixable o ha hb with ⟨hma, hmb⟩
    refine ⟨hma, hmb, PropertySet.disjoint_iff.mpr fun p => ?_⟩
    exact h.apart ⟨o, p⟩
  · intro h
    constructor
    · intro o ha hb
      rcases h o ha hb with ⟨hma, hmb, _⟩
      exact ⟨hma, hmb⟩
    · intro c hc
      have ha := touches_of_declares hc.1
      have hb := touches_of_declares hc.2
      rcases h c.object ha hb with ⟨_, _, apart⟩
      exact PropertySet.disjoint_iff.mp apart c.property hc

/-- An animation mixes with some properties when it is mixable and drives none of
them. -/
theorem value_mixesOn (a : Animation α μ ι) (o : Object) (others : PropertySet) :
    (a.mixesOn o others).value = (a.mixable && (a.declarations.on o).disjoint others) := by
  cases h : a.mixable <;> simp [mixesOn, h]

/-- To have no property in common is mutual. -/
private theorem disjoint_comm (s t : PropertySet) : s.disjoint t = t.disjoint s := by
  rw [Bool.eq_iff_iff, PropertySet.disjoint_iff, PropertySet.disjoint_iff]
  exact forall_congr' fun p => by rw [and_comm]

/-- The mixing test finds out whether two animations are compatible. -/
theorem canShareGroup_iff {a b : Animation α μ ι} :
    (a.canShareGroup b).value = true ↔ a.Compatible b := by
  rw [compatible_iff_disjoint, canShareGroup, Logged.value_all, List.all_eq_true]
  simp only [List.mem_filter, mem_objects, and_imp]
  refine forall_congr' fun o => forall_congr' fun ha => forall_congr' fun hb => ?_
  cases hm : a.mixable <;>
    cases hd : (a.declarations.on o).disjoint (b.declarations.on o) <;>
      simp [value_mixesOn, hm, hd, disjoint_comm (b.declarations.on o)]

instance (a b : Animation α μ ι) : Decidable (a.Compatible b) :=
  decidable_of_iff _ canShareGroup_iff

end Animation

/-- The members of the group may run side by side. -/
def Group.Exclusive (g : Group α μ ι) : Prop :=
  g.Pairwise fun m n => m.animation.Compatible n.animation

instance (g : Group α μ ι) : Decidable g.Exclusive :=
  inferInstanceAs (Decidable (List.Pairwise _ g))

/-- A member fits an animation when it is compatible with it. -/
theorem Member.fits_iff {candidate : Animation α μ ι} {m : Member α μ ι} :
    m.fits candidate = true ↔ m.animation.Compatible candidate :=
  Animation.canShareGroup_iff

end CameraMotion
