import CameraMotion.Proofs.Moments
import Mathlib.Data.List.Induction

/-!
# The life of a leaf

Leaves are told apart by numbers, which they carry beside their listeners.  What one
leaf notices is its trace, and a trace says how far the leaf has come, as long as
every moment comes when it may.

Main results:

- Theorem `Phase.after_append`: a leaf goes on from where it has come.
- Theorem `Phase.after_eq_some_iff`: a leaf that waited has come to a phase exactly
  when its trace has one of four forms, one for each phase.
- Theorem `trace_told`: of several leaves with numbers of their own that are told of
  a hook, each is told once.
-/

namespace CameraMotion

variable {ι β : Type}

/-! ## Phases -/

/-- How far a leaf has come. -/
inductive Phase where
  | waiting
  /-- It has been started, and has not come to an end. -/
  | running
  /-- It has been told of its finish. -/
  | finished
  /-- It has been told of an interruption. -/
  | interrupted
deriving DecidableEq, Repr

namespace Phase

/-- The phase after one moment; none when the moment may not come in this phase. -/
def next : Phase → Moment → Option Phase
  | .waiting, .told .start => some .running
  | .running, .advanced => some .running
  | .running, .told .finish => some .finished
  | .running, .told .interrupt => some .interrupted
  | _, _ => none

/-- The phase after several moments. -/
def after (p : Phase) : List Moment → Option Phase
  | [] => some p
  | m :: ms => (p.next m).bind (·.after ms)

/-- Without a moment a life stays where it is. -/
@[simp]
theorem after_nil (p : Phase) : p.after [] = some p :=
  rfl

/-- A life goes on moment by moment. -/
@[simp]
theorem after_cons (p : Phase) (m : Moment) (ms : List Moment) :
    p.after (m :: ms) = (p.next m).bind (·.after ms) :=
  rfl

/-- A life may be told in two parts. -/
theorem after_append (p : Phase) (ms ns : List Moment) :
    p.after (ms ++ ns) = (p.after ms).bind (·.after ns) := by
  induction ms generalizing p with
  | nil => rfl
  | cons m ms ih =>
      cases h : p.next m with
      | none => simp [h]
      | some q => simp [h, ih]

/-- The form of a trace that leads a leaf from the beginning to a phase. -/
def Lived : Phase → List Moment → Prop
  | .waiting, ms => ms = []
  | .running, ms => ∃ n, ms = .told .start :: List.replicate n .advanced
  | .finished, ms => ∃ n, ms = .told .start :: List.replicate n .advanced ++ [.told .finish]
  | .interrupted, ms =>
      ∃ n, ms = .told .start :: List.replicate n .advanced ++ [.told .interrupt]

/-- Who runs goes on to run while time passes. -/
theorem after_replicate (n : Nat) :
    Phase.running.after (List.replicate n .advanced) = some .running := by
  induction n with
  | zero => rfl
  | succ n ih => simpa [List.replicate_succ, next] using ih

/-- A leaf that waited has come to a phase exactly when its trace has the form that
belongs to the phase. -/
theorem after_eq_some_iff {p : Phase} {ms : List Moment} :
    Phase.waiting.after ms = some p ↔ p.Lived ms := by
  constructor
  · intro h
    induction ms using List.reverseRecOn generalizing p with
    | nil =>
        obtain rfl : Phase.waiting = p := by simpa using h
        rfl
    | append_singleton ms m ih =>
        rw [after_append, Option.bind_eq_some_iff] at h
        rcases h with ⟨q, hq, h⟩
        have lived := ih hq
        cases q <;> rcases m with (_ | _ | _) | _ <;> simp only [after_cons, after_nil, next,
          Option.bind_some, Option.bind_none, Option.some.injEq, reduceCtorEq] at h <;>
            subst h
        · -- A waiting leaf can only be started.
          obtain rfl : ms = [] := lived
          exact ⟨0, rfl⟩
        · rcases lived with ⟨n, rfl⟩
          exact ⟨n, rfl⟩
        · rcases lived with ⟨n, rfl⟩
          exact ⟨n, rfl⟩
        · rcases lived with ⟨n, rfl⟩
          exact ⟨n + 1, by simp [List.replicate_succ']⟩
  · intro lived
    cases p with
    | waiting =>
        obtain rfl : ms = [] := lived
        rfl
    | running =>
        rcases lived with ⟨n, rfl⟩
        simp [next, after_replicate]
    | finished =>
        rcases lived with ⟨n, rfl⟩
        simp [next, after_append, after_replicate]
    | interrupted =>
        rcases lived with ⟨n, rfl⟩
        simp [next, after_append, after_replicate]

/-- There is no moment after the finish. -/
theorem after_finished_eq_some {p : Phase} {ms : List Moment}
    (h : Phase.finished.after ms = some p) : ms = [] ∧ p = .finished := by
  cases ms with
  | nil => exact ⟨rfl, by simpa using h.symm⟩
  | cons m ms => simp [next] at h

end Phase

/-! ## Traces -/

/-- What the leaf with a number notices, of all that is noticed. -/
def trace (k : Nat) (ms : List ((ι × Nat) × Moment)) : List Moment :=
  (ms.filter (·.1.2 = k)).map (·.2)

/-- Of nothing nobody notices anything. -/
@[simp]
theorem trace_nil (k : Nat) : trace k ([] : List ((ι × Nat) × Moment)) = [] :=
  rfl

/-- What a leaf notices of two lists it notices of the first one first. -/
@[simp]
theorem trace_append (k : Nat) (ms ns : List ((ι × Nat) × Moment)) :
    trace k (ms ++ ns) = trace k ms ++ trace k ns := by
  simp [trace]

/-- A leaf that notices nothing of each of several lists notices nothing of all of them. -/
theorem trace_flatMap_eq_nil {k : Nat} {xs : List β} {f : β → List ((ι × Nat) × Moment)}
    (quiet : ∀ x ∈ xs, trace k (f x) = []) : trace k (xs.flatMap f) = [] := by
  induction xs with
  | nil => rfl
  | cons x xs ih =>
      rw [List.flatMap_cons, trace_append, quiet x (by simp),
        ih fun y hy => quiet y (List.mem_cons_of_mem _ hy)]
      rfl

/-- When all who contribute to a trace but one contribute nothing, it is the trace of
that one. -/
theorem trace_flatMap_of_mem {k : Nat} {xs : List β} {f : β → List ((ι × Nat) × Moment)}
    {id : β → Nat} (distinct : (xs.map id).Nodup) {x : β} (hx : x ∈ xs)
    (quiet : ∀ y ∈ xs, id y ≠ id x → trace k (f y) = []) :
    trace k (xs.flatMap f) = trace k (f x) := by
  induction xs with
  | nil => simp at hx
  | cons y ys ih =>
      rw [List.map_cons, List.nodup_cons] at distinct
      rw [List.flatMap_cons, trace_append]
      have later : ∀ z ∈ ys, id z ≠ id y := by
        intro z hz same
        exact distinct.1 (List.mem_map.mpr ⟨z, hz, same⟩)
      rcases List.mem_cons.mp hx with rfl | hx
      · have rest : trace k (ys.flatMap f) = [] :=
          trace_flatMap_eq_nil fun z hz => quiet z (List.mem_cons_of_mem _ hz) (later z hz)
        rw [rest, List.append_nil]
      · rw [quiet y (by simp) (later x hx).symm, List.nil_append]
        exact ih distinct.2 hx fun z hz => quiet z (List.mem_cons_of_mem _ hz)

/-- Of several leaves with numbers of their own that are told of a hook, each is told
once. -/
theorem trace_told (k : Nat) (hook : Hook) {xs : List β} {listener : β → ι × Nat}
    (distinct : (xs.map fun x => (listener x).2).Nodup) :
    trace k (xs.map fun x => (listener x, .told hook)) =
      if k ∈ xs.map (fun x => (listener x).2) then [.told hook] else [] := by
  induction xs with
  | nil => rfl
  | cons x xs ih =>
      rw [List.map_cons, List.nodup_cons] at distinct
      have ih := ih distinct.2
      rw [List.map_cons, ← List.singleton_append, trace_append, ih, List.map_cons]
      by_cases here : (listener x).2 = k
      · subst here
        simp [trace, distinct.1]
      · simp [trace, here, Ne.symm here]

end CameraMotion
