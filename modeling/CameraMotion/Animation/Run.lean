import CameraMotion.Animation.Basic

/-!
# Running animations

How an animation is told of its life, how it lets time pass, and how its end is
brought forward.

The three hooks reach different leaves.  A parallel passes a start and an
interruption on to all members, but no finish, because each member was told when
it finished.  A sequence passes every hook on to its first stage, which is the
running one.

Main results:

- Theorem `Animation.hookEventsAll_eq`: members are told in order.
- Theorem `Animation.capAll_eq`: members are capped one by one.
-/

namespace CameraMotion.Animation

variable {α μ ι : Type}

/-! ## Hooks -/

mutual

/-- What is told to whom when a hook of the animation is called. -/
def hookEvents (hook : Hook) : Animation α μ ι → List (Event α μ ι)
  | .leaf listener body => [.told hook listener body]
  | .parallel _ members =>
      match hook with
      | .finish => []
      | .start => hookEventsAll .start members
      | .interrupt => hookEventsAll .interrupt members
  | .sequence [] => []
  | .sequence (head :: _) => head.hookEvents hook

/-- What is told to whom when a hook of several animations is called. -/
def hookEventsAll (hook : Hook) : List (Animation α μ ι) → List (Event α μ ι)
  | [] => []
  | m :: ms => m.hookEvents hook ++ hookEventsAll hook ms

end

/-- Members are told in order. -/
theorem hookEventsAll_eq (hook : Hook) (ms : List (Animation α μ ι)) :
    hookEventsAll hook ms = ms.flatMap (·.hookEvents hook) := by
  induction ms with
  | nil => rfl
  | cons m ms ih => simp [hookEventsAll, ih]

/-- Call a hook of an animation. -/
def tell (hook : Hook) (a : Animation α μ ι) : Watched α μ ι Unit :=
  Logged.emit (a.hookEvents hook)

/-! ## Time -/

variable [Scalar α] [Motion α μ]

mutual

/-- Let time pass. -/
def advance (seconds : α) : Animation α μ ι → Watched α μ ι (Animation α μ ι)
  | .leaf listener body => do
      Watched.breaches (body.advanceBreaches seconds)
      let body := body.advance seconds
      Logged.emit [.advanced listener body]
      pure (.leaf listener body)
  | .parallel declared members => do
      pure (.parallel declared (← advanceMembers seconds members))
  | .sequence stages => do
      pure (.sequence (← advanceStages seconds stages))

/-- Let time pass in every member, in order.  A member that is over then is told
so and leaves, before the next one is advanced. -/
def advanceMembers (seconds : α) :
    List (Animation α μ ι) → Watched α μ ι (List (Animation α μ ι))
  | [] => pure []
  | m :: ms => do
      let m ← m.advance seconds
      if m.finished then
        m.tell .finish
        advanceMembers seconds ms
      else
        pure (m :: (← advanceMembers seconds ms))

/-- Let time pass in the running stage.  When it is over it gives way to the next
stage, which starts right away; the last stage stays. -/
def advanceStages (seconds : α) :
    List (Animation α μ ι) → Watched α μ ι (List (Animation α μ ι))
  | [] => pure []
  | head :: rest => do
      let head ← head.advance seconds
      match rest with
      | [] => pure [head]
      | next :: later =>
          if head.finished then
            head.tell .finish
            next.tell .start
            pure (next :: later)
          else
            pure (head :: next :: later)

end

/-! ## Bringing the end forward -/

mutual

/-- Bring the end forward: of all members of a parallel, and of the running stage
of a sequence. -/
def cap (limit : α) : Animation α μ ι → Animation α μ ι
  | .leaf listener body => .leaf listener (body.cap limit)
  | .parallel declared members => .parallel declared (capAll limit members)
  | .sequence [] => .sequence []
  | .sequence (head :: rest) => .sequence (head.cap limit :: rest)

/-- Bring the end of several animations forward. -/
def capAll (limit : α) : List (Animation α μ ι) → List (Animation α μ ι)
  | [] => []
  | m :: ms => m.cap limit :: capAll limit ms

end

/-- Members are capped one by one. -/
theorem capAll_eq (limit : α) (ms : List (Animation α μ ι)) :
    capAll limit ms = ms.map (·.cap limit) := by
  induction ms with
  | nil => rfl
  | cons m ms ih => simp [capAll, ih]

end CameraMotion.Animation
