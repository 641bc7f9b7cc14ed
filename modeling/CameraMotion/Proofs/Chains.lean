import CameraMotion.Proofs.Transforms

/-!
# Chains of maps

A matrix is determined by where it takes the points.  So two ways to put maps together give
one matrix as soon as they apply the same maps in the same order.  Brackets leave that order
as it is, and with it the matrix.

Main results:

- Theorem `Affine.eq_of_apply`: maps that take every point to the same place are one matrix.
- Theorem `Affine.apply_chain`: a chain applies its maps, the last one first.
- Theorem `Affine.Bracketing.product_eq_chain`: brackets do not matter.
- Theorem `Affine.chain_undone`: a chain is undone by the inverses of its maps in reverse
  order, also where the chain itself shrinks areas too much to have an inverse.
- Theorem `Affine.compose_and_invert`: matrices compose and invert as maps do.
-/

namespace CameraMotion.Affine

/-! ## A matrix is what it does -/

/-- Maps that take every point to the same place are one matrix: the origin tells where both
move, and the two units how both stretch and turn. -/
theorem eq_of_apply {m n : Affine ℝ} (alike : ∀ p, m.apply p = n.apply p) : m = n := by
  have origin := alike ⟨0, 0⟩
  have right := alike ⟨1, 0⟩
  have up := alike ⟨0, 1⟩
  simp only [apply, Point.mk.injEq, mul_zero, mul_one, zero_add, add_zero] at origin right up
  ext
  case a => linarith
  case b => linarith
  case c => linarith
  case d => linarith
  case tx => exact origin.1
  case ty => exact origin.2

/-- Nothing changes when the identity is applied last. -/
theorem identity_after (m : Affine ℝ) : identity.after m = m :=
  eq_of_apply fun p => by rw [apply_after, apply_identity]

/-- Nothing changes when the identity is applied first. -/
theorem after_identity (m : Affine ℝ) : m.after identity = m :=
  eq_of_apply fun p => by rw [apply_after, apply_identity]

/-! ## Chains -/

/-- Maps that are composed from the left on are applied from the last one on. -/
private theorem apply_foldl_after (m : Affine ℝ) (ms : List (Affine ℝ)) (p : Point ℝ) :
    (ms.foldl after m).apply p = m.apply (ms.foldr apply p) := by
  induction ms generalizing m with
  | nil => rfl
  | cons n ns ih => rw [List.foldl_cons, ih, apply_after, List.foldr_cons]

/-- A chain applies its maps one after the other, the last one first. -/
theorem apply_chain (ms : List (Affine ℝ)) (p : Point ℝ) :
    (chain ms).apply p = ms.foldr apply p := by
  cases ms with
  | nil => exact apply_identity p
  | cons m ms => exact apply_foldl_after m ms p

/-! ## Brackets -/

/-- A way to compose the maps of a chain, two neighbours at a time. -/
inductive Bracketing (α : Type) where
  /-- A map as it stands. -/
  | single (m : Affine α)
  /-- Two parts of the chain in brackets of their own. -/
  | pair (outer inner : Bracketing α)

namespace Bracketing

variable {α : Type}

/-- The chain without its brackets. -/
def maps : Bracketing α → List (Affine α)
  | single m => [m]
  | pair outer inner => outer.maps ++ inner.maps

/-- The matrix that is worked out by composing as the brackets say. -/
def product [Scalar α] : Bracketing α → Affine α
  | single m => m
  | pair outer inner => outer.product.after inner.product

/-- However the brackets stand, the maps are applied in the order of the chain. -/
theorem apply_product (b : Bracketing ℝ) (p : Point ℝ) :
    b.product.apply p = b.maps.foldr apply p := by
  induction b generalizing p with
  | single m => rfl
  | pair outer inner iho ihi =>
      rw [product, apply_after, ihi, iho, maps, List.foldr_append]

/-- Brackets do not matter. -/
theorem product_eq_chain (b : Bracketing ℝ) : b.product = chain b.maps :=
  eq_of_apply fun p => by rw [apply_product, apply_chain]

end Bracketing

/-! ## Undoing a chain -/

/-- A chain is undone by the inverses of its maps in reverse order.  The chain itself may
shrink areas too much to have an inverse. -/
theorem chain_undone {ms is : List (Affine ℝ)}
    (inverses : List.Forall₂ (fun m i => m.inverse? = some i) ms is) :
    (chain is.reverse).after (chain ms) = identity ∧
      (chain ms).after (chain is.reverse) = identity := by
  have undone : ∀ p, is.reverse.foldr apply (ms.foldr apply p) = p ∧
      ms.foldr apply (is.reverse.foldr apply p) = p := by
    -- The outermost map is the last one to be applied, and the first one to be undone.
    induction inverses with
    | nil => exact fun _ => ⟨rfl, rfl⟩
    | cons inverse _ ih =>
        intro p
        simp only [List.reverse_cons, List.foldr_append, List.foldr_cons, List.foldr_nil]
        rw [apply_of_inverse? inverse, (ih _).2]
        exact ⟨(ih p).1, of_apply_inverse? inverse p⟩
  constructor <;> refine eq_of_apply fun p => ?_ <;>
    rw [apply_after, apply_chain, apply_chain, apply_identity]
  · exact (undone p).1
  · exact (undone p).2

/-! ## The main result -/

/-- Matrices compose and invert as maps do.  A chain applies its maps, the last one first;
the identity is neutral, and brackets do not matter.  A map has no inverse exactly when its
determinant is below the resolution of a double; the inverse that it has undoes it, and is
undone by it. -/
theorem compose_and_invert :
    (∀ (ms : List (Affine ℝ)) (p : Point ℝ), (chain ms).apply p = ms.foldr apply p) ∧
      (∀ m : Affine ℝ, identity.after m = m ∧ m.after identity = m) ∧
      (∀ b : Bracketing ℝ, b.product = chain b.maps) ∧
      (∀ m : Affine ℝ, m.inverse? = none ↔ |m.a * m.d - m.b * m.c| < 1 / 2 ^ 52) ∧
      ∀ {m i : Affine ℝ}, m.inverse? = some i →
        (∀ p, i.apply (m.apply p) = p) ∧ ∀ p, m.apply (i.apply p) = p :=
  ⟨apply_chain, fun m => ⟨identity_after m, after_identity m⟩, Bracketing.product_eq_chain,
    fun _ => inverse?_eq_none_iff,
    fun inverse => ⟨apply_of_inverse? inverse, of_apply_inverse? inverse⟩⟩

/-- A translation, then a stretch, then a shear take a point somewhere, and have an inverse
that takes it back. -/
theorem compose_and_invert_shearedStretch :
    let ms : List (Affine ℝ) := [⟨1, 0, 2, 1, 0, 0⟩, scaling 2 3, translation 5 7]
    (chain ms).apply ⟨1, 1⟩ = ⟨60, 24⟩ ∧
      ∃ i, (chain ms).inverse? = some i ∧ i.apply ⟨60, 24⟩ = ⟨1, 1⟩ := by
  intro ms
  rcases compose_and_invert with ⟨applied, _, _, flat, undoes⟩
  have there : (chain ms).apply ⟨1, 1⟩ = ⟨60, 24⟩ := by
    rw [applied]
    norm_num [ms, apply, scaling, translation]
  refine ⟨there, ?_⟩
  cases inverse : (chain ms).inverse? with
  | none =>
      have steep := (flat _).mp inverse
      norm_num [ms, chain, after, scaling, translation] at steep
  | some i => exact ⟨i, rfl, there ▸ (undoes inverse).1 _⟩

end CameraMotion.Affine
