import CameraMotion.Proofs.History
import CameraMotion.Proofs.Renaming

/-!
# Numbering leaves

How the leaves of any run get numbers of their own: they are counted in the order in
which they are inserted.

Main results:

- Theorem `Operation.map_rename_numberAll`: without the numbers the run is the one that
  it was.
- Theorem `Operation.numbered_numberAll`: no number is given twice.
-/

namespace CameraMotion

variable {α μ ι : Type}

namespace Animation

mutual

/-- The animation with its leaves numbered in order, from a first number on. -/
def number (first : Nat) : Animation α μ ι → Animation α μ (ι × Nat)
  | .leaf listener body => .leaf (listener, first) body
  | .parallel declared members => .parallel declared (numberAll first members)
  | .sequence stages => .sequence (numberAll first stages)

def numberAll (first : Nat) : List (Animation α μ ι) → List (Animation α μ (ι × Nat))
  | [] => []
  | m :: ms => m.number first :: numberAll (first + m.leaves.length) ms

end

/-- Numbered members without their numbers are the members. -/
private theorem map_rename_numberAll {ms : List (Animation α μ ι)}
    (same : ∀ m ∈ ms, ∀ first, (m.number first).rename Prod.fst = m) (first : Nat) :
    (numberAll first ms).map (rename Prod.fst) = ms := by
  induction ms generalizing first with
  | nil => rfl
  | cons m ms ih =>
      have ih := ih (fun m' hm' => same m' (List.mem_cons_of_mem _ hm'))
      simp [numberAll, same m (by simp), ih]

/-- Without the numbers the animation is the one that it was. -/
@[simp]
theorem rename_number (a : Animation α μ ι) (first : Nat) :
    (a.number first).rename Prod.fst = a := by
  induction a generalizing first with
  | leaf listener body => simp [number]
  | parallel declared members ih => simp [number, map_rename_numberAll ih]
  | sequence stages ih => simp [number, map_rename_numberAll ih]

/-- Several members are numbered one after the other. -/
private theorem numbers_numberAll {ms : List (Animation α μ ι)}
    (count : ∀ m ∈ ms, ∀ first, (m.number first).numbers = List.range' first m.leaves.length)
    (first : Nat) :
    (numberAll first ms).flatMap numbers = List.range' first (ms.flatMap leaves).length := by
  induction ms generalizing first with
  | nil => rfl
  | cons m ms ih =>
      have ih := ih (fun m' hm' => count m' (List.mem_cons_of_mem _ hm'))
      rw [numberAll, List.flatMap_cons, count m (by simp), ih, List.range'_append_1,
        List.flatMap_cons, List.length_append]

/-- The leaves of an animation are numbered from the first number on, without a gap. -/
theorem numbers_number (a : Animation α μ ι) (first : Nat) :
    (a.number first).numbers = List.range' first a.leaves.length := by
  induction a generalizing first with
  | leaf listener body => simp [number, numbers]
  | parallel declared members ih =>
      rw [number, numbers, leaves_parallel, leaves_parallel, List.map_flatMap]
      exact numbers_numberAll ih first
  | sequence stages ih =>
      rw [number, numbers, leaves_sequence, leaves_sequence, List.map_flatMap]
      exact numbers_numberAll ih first

end Animation

namespace Operation

/-- The operation with the leaves of its animation numbered. -/
def number (first : Nat) : Operation α μ ι → Operation α μ (ι × Nat)
  | .add a force => .add (a.number first) force
  | .advance seconds => .advance seconds
  | .read c fallback => .read c fallback
  | .rect v => .rect v
  | .save a => .save (a.number first)
  | .clear => .clear

/-- A run with the leaves that it inserts numbered in order. -/
def numberAll (first : Nat) : List (Operation α μ ι) → List (Operation α μ (ι × Nat))
  | [] => []
  | op :: ops =>
      let size := op.added?.elim 0 (·.leaves.length)
      op.number first :: numberAll (first + size) ops

/-- Without the numbers the run is the one that it was. -/
theorem map_rename_numberAll (ops : List (Operation α μ ι)) (first : Nat) :
    (numberAll first ops).map (rename Prod.fst) = ops := by
  induction ops generalizing first with
  | nil => rfl
  | cons op ops ih =>
      rw [numberAll, List.map_cons, ih]
      cases op <;> simp [number, rename]

/-- The leaves of everything that a run inserts are numbered one after the other. -/
theorem numbers_added_numberAll (ops : List (Operation α μ ι)) (first : Nat) :
    (added (numberAll first ops)).flatMap (·.numbers) =
      List.range' first ((added ops).flatMap (·.leaves)).length := by
  induction ops generalizing first with
  | nil => rfl
  | cons op ops ih =>
      have ih := ih (first + op.added?.elim 0 (·.leaves.length))
      rw [numberAll, ← List.singleton_append, added_append, List.flatMap_append, ih,
        ← List.singleton_append (l := ops), added_append, List.flatMap_append,
        List.length_append]
      cases op with
      | add a force =>
          simp [number, added?, Animation.numbers_number, List.range'_append_1]
      | _ => simp [number, added?]

/-- No number is given twice. -/
theorem numbered_numberAll (ops : List (Operation α μ ι)) (first : Nat) :
    Numbered (numberAll first ops) := by
  rw [Numbered, numbers_added_numberAll]
  exact List.nodup_range'

end Operation

end CameraMotion
