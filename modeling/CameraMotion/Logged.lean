/-!
# Logged results

A result together with what happened on the way to it, in order.

Main results:

- Theorems `Logged.value_bind` and `Logged.log_bind`: a step after a step works on
  its value, and its log comes after.
-/

namespace CameraMotion

/-- A value and the log of what happened while it was worked out. -/
@[ext]
structure Logged (ε β : Type) where
  /-- The result. -/
  value : β
  /-- What happened, in order. -/
  log : List ε

namespace Logged

variable {ε β γ : Type}

instance : Monad (Logged ε) where
  pure x := ⟨x, []⟩
  bind m f := ⟨(f m.value).value, m.log ++ (f m.value).log⟩

/-- Log some events. -/
def emit (events : List ε) : Logged ε Unit :=
  ⟨(), events⟩

/-- Whether every element passes a logged test; the first that fails ends it. -/
def all (test : β → Logged ε Bool) : List β → Logged ε Bool
  | [] => pure true
  | x :: xs => do
      if ← test x then all test xs else pure false

/-- To give a value is to have it as the result. -/
@[simp] theorem value_pure (x : β) : (pure x : Logged ε β).value = x :=
  rfl

/-- To give a value logs nothing. -/
@[simp] theorem log_pure (x : β) : (pure x : Logged ε β).log = [] :=
  rfl

/-- A step after a step works on its value. -/
@[simp] theorem value_bind (m : Logged ε β) (f : β → Logged ε γ) :
    (m >>= f).value = (f m.value).value :=
  rfl

/-- The log of a step after a step comes after its log. -/
@[simp] theorem log_bind (m : Logged ε β) (f : β → Logged ε γ) :
    (m >>= f).log = m.log ++ (f m.value).log :=
  rfl

/-- The result is mapped. -/
@[simp] theorem value_map (f : β → γ) (m : Logged ε β) : (f <$> m).value = f m.value :=
  rfl

/-- To map the result logs nothing more. -/
@[simp] theorem log_map (f : β → γ) (m : Logged ε β) : (f <$> m).log = m.log := by
  show m.log ++ [] = m.log
  simp

/-- To log something has no result. -/
@[simp] theorem value_emit (events : List ε) : (emit events).value = () :=
  rfl

/-- What is logged is logged. -/
@[simp] theorem log_emit (events : List ε) : (emit events).log = events :=
  rfl

/-- The value of a logged test of all elements is the test of all elements. -/
@[simp] theorem value_all (test : β → Logged ε Bool) (xs : List β) :
    (all test xs).value = xs.all fun x => (test x).value := by
  induction xs with
  | nil => rfl
  | cons x xs ih =>
      cases h : (test x).value <;> simp [all, h, ih]

end Logged

end CameraMotion
