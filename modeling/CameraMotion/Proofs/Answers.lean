import CameraMotion.Follow.Calls
import CameraMotion.Proofs.Contracts
import CameraMotion.Scheduler.Answer

/-!
# Answers without a broken contract

As no request breaks a contract, a guarded scheduler never gives up.

Main results:

- Theorem `Scheduler.guardedAnswers_eq`: to guard every request is to guard all of them
  together.
- Theorem `Scheduler.readable_iff_recorded`: a follow can be read exactly on what it was
  asked for.
- Theorem `Scheduler.run_answers`: a guarded scheduler gives the same answers as one that
  is not.
-/

namespace CameraMotion

variable {α μ ι : Type}

namespace Scheduler

/-! ## Requests one by one -/

section

variable [Scalar α] [Motion α μ]

/-- An operation is carried out while it is answered. -/
theorem step_eq_answer (s : Scheduler α μ ι) (op : Operation α μ ι) :
    s.step op = Prod.snd <$> s.answer (.operation op) := by
  cases op <;> ext1 <;> simp [step, answer]

/-- To guard every request is to guard all of them together. -/
theorem guardedAnswers_eq (s : Scheduler α μ ι) (rs : List (Request α μ ι)) :
    s.guardedAnswers rs = (s.answers rs).guarded := by
  induction rs generalizing s with
  | nil => rfl
  | cons r rs ih =>
      rw [answers, Logged.guarded_bind, guardedAnswers]
      refine congrArg _ (funext fun result => ?_)
      rw [Logged.guarded_bind, ← ih]
      rfl

/-- A request is answered without a broken contract or a failed read, as long as time
does not run backwards. -/
theorem clean_answer (s : Scheduler α μ ι) {r : Request α μ ι}
    (forward : ∀ seconds, r = .operation (.advance seconds) → 0 ≤ seconds) :
    (s.answer r).Clean := by
  cases r with
  | animates o => exact Logged.clean_pure _
  | operation op =>
      cases op with
      | add a force => exact (s.clean_add a force).map _
      | advance seconds => exact (s.clean_advance (forward seconds rfl)).map _
      | read c fallback => exact (s.clean_read c fallback).map _
      | rect v => exact (s.clean_rect v).map _
      | save a => exact (s.clean_save a).map _
      | clear => exact Logged.clean_pure _

/-- Several requests are answered without a broken contract or a failed read, as long as
time does not run backwards. -/
theorem clean_answers (s : Scheduler α μ ι) {rs : List (Request α μ ι)}
    (forward : ∀ seconds, .operation (.advance seconds) ∈ rs → 0 ≤ seconds) :
    (s.answers rs).Clean := by
  induction rs generalizing s with
  | nil => exact Logged.clean_pure _
  | cons r rs ih =>
      have here : (s.answer r).Clean := by
        refine s.clean_answer fun seconds same => forward seconds ?_
        rw [same]
        exact List.mem_cons_self
      have later := ih (s.answer r).value.2 fun seconds h =>
        forward seconds (List.mem_cons_of_mem _ h)
      exact here.bind (later.bind (Logged.clean_pure _))

end

/-! ## The main result -/

section

variable [PlaneScalar α] [Motion α μ]

/-- However a follow has been filled, capped and advanced, what it has noted down are the
properties of the parts that it was asked for and that lead somewhere, and these are the ones
on which it can be read. -/
theorem readable_iff_recorded (timing : Timing α) (calls : List (Follow.Call α))
    (steps : List (Clock.Step α)) (p : Property) :
    let f := (Follow.fill timing calls).run steps
    f.driven = calls.foldl Follow.record .empty ∧
      ((f.reading? p).isSome = true ↔ (calls.foldl Follow.record .empty).contains p = true) := by
  intro f
  have noted : f.driven = calls.foldl Follow.record .empty := by
    rw [Follow.driven_run, Follow.driven_fill]
  exact ⟨noted, noted ▸ Follow.reading?_isSome_iff⟩

/-- Whatever is asked of a scheduler, and whatever animations it is given, no contract is
broken and no read fails, as long as time does not run backwards.  So it gives the same
answers, and everybody notices the same, when the first broken contract ends everything.
This rests on follows that can be read on just what they have noted down, and so they can,
however they are filled and whatever happens to them then. -/
theorem run_answers (rs : List (Request α μ ι))
    (forward : ∀ seconds, .operation (.advance seconds) ∈ rs → 0 ≤ seconds) :
    let unguarded := (empty : Scheduler α μ ι).answers rs
    (∀ v, .breach v ∉ unguarded.log) ∧ (∀ f, .fault f ∉ unguarded.log) ∧
      (empty : Scheduler α μ ι).guardedAnswers rs =
        .mk ⟨.ok unguarded.value, unguarded.log⟩ ∧
      ∀ (timing : Timing α) (calls : List (Follow.Call α)) (steps : List (Clock.Step α)) p,
        let f := (Follow.fill timing calls).run steps
        f.driven = calls.foldl Follow.record .empty ∧
          ((f.reading? p).isSome = true ↔
            (calls.foldl Follow.record .empty).contains p = true) := by
  intro unguarded
  have clean : unguarded.Clean := clean_answers .empty forward
  refine ⟨fun v h => clean _ h, fun f h => clean _ h, ?_, readable_iff_recorded⟩
  rw [guardedAnswers_eq]
  exact clean.guarded

end

/-- A parallel of a ramp and of a sequence that ends with a zoom, beside another ramp:
the zoom is driven and was never declared, and the first ramp is still declared and
gone. -/
def zoomedAfterTurn : List (Request Float (Ramp Float) Nat) :=
  [.operation (.add (.together
      [.ramp 0 [.position] true true 0.5,
        .inTurn [.ramp 1 [.angle] true true 0.5,
          .leaf 2 (.follow ((Follow.empty .standard).withZoom 1 2))]]) false),
    .operation (.add (.ramp 3 [] true true 2) false),
    .operation (.advance 0.5),
    .operation (.rect .standard),
    .operation (.add (.ramp 4 [.position] true true 1) true),
    .animates .mapPlane]

/-- The run breaks no contract, though the parallel is asked, read and removed when its
declarations have come apart from what it drives. -/
theorem run_answers_zoomedAfterTurn :
    (∀ seconds, .operation (.advance seconds) ∈ zoomedAfterTurn → (0 : Float) ≤ seconds) ∧
      (empty : Scheduler Float (Ramp Float) Nat).guardedAnswers zoomedAfterTurn =
        .mk ⟨.ok ((empty : Scheduler Float (Ramp Float) Nat).answers zoomedAfterTurn).value,
          ((empty : Scheduler Float (Ramp Float) Nat).answers zoomedAfterTurn).log⟩ := by
  have forward : ∀ seconds, .operation (.advance seconds) ∈ zoomedAfterTurn →
      (0 : Float) ≤ seconds := by
    intro seconds h
    obtain rfl : seconds = 0.5 := by simpa [zoomedAfterTurn] using h
    decide
  rcases run_answers zoomedAfterTurn forward with ⟨_, _, same, _⟩
  exact ⟨forward, same⟩

end Scheduler

end CameraMotion
