import CameraMotion.Proofs.Advance
import CameraMotion.Proofs.Run

/-!
# One tick of the scheduler

Advancing the running group member by member, with those that are over leaving on
the way, comes to this: advance them all, and split them into survivors, who stay
in order, and those who leave and whose values are kept, in order as well.

Main results:

- Theorem `Scheduler.value_advanceGroup`: what is left of a group, and what is kept
  then.
- Theorem `Scheduler.moments_advance`: the running members have their turns one after
  the other.
- Theorems `Scheduler.chain_advance` and `Scheduler.cache_advance`: the running
  group gives way exactly when nobody survives in it, and no other group changes.
-/

namespace CameraMotion

variable {α μ ι : Type} [Scalar α] [Motion α μ]

/-- The member after its animation was advanced. -/
def Member.advanced (seconds : α) (m : Member α μ ι) : Member α μ ι :=
  ⟨m.id, m.animation.advanced seconds⟩

def Member.finished (m : Member α μ ι) : Bool :=
  m.animation.finished

namespace Group

/-- The members that are not over once time has passed. -/
def survivors (seconds : α) (g : Group α μ ι) : Group α μ ι :=
  (g.map (·.advanced seconds)).filter (!·.finished)

/-- The members that are over once time has passed. -/
def leavers (seconds : α) (g : Group α μ ι) : Group α μ ι :=
  (g.map (·.advanced seconds)).filter (·.finished)

/-- Nobody survives in an empty group. -/
@[simp]
theorem survivors_nil (seconds : α) : survivors seconds ([] : Group α μ ι) = [] :=
  rfl

/-- Who survives is a member after its step, and not over. -/
theorem mem_survivors {seconds : α} {g : Group α μ ι} {m : Member α μ ι} :
    m ∈ survivors seconds g ↔
      (∃ m₀ ∈ g, m₀.advanced seconds = m) ∧ m.finished = false := by
  simp [survivors]

/-- Who leaves is a member after its step, and over. -/
theorem mem_leavers {seconds : α} {g : Group α μ ι} {m : Member α μ ι} :
    m ∈ leavers seconds g ↔ (∃ m₀ ∈ g, m₀.advanced seconds = m) ∧ m.finished = true := by
  simp [leavers]

end Group

namespace Scheduler

/-- Keep the values of several members, one after the other. -/
def keepAll (cache : Cache α) (members : List (Member α μ ι)) : Cache α :=
  members.foldl (fun cache m => (keep cache m.animation).value) cache

/-- Where nobody goes nothing is kept anew. -/
@[simp]
theorem keepAll_nil (cache : Cache α) : keepAll cache ([] : List (Member α μ ι)) = cache :=
  rfl

/-- Members leave their values one after the other. -/
@[simp]
theorem keepAll_cons (cache : Cache α) (m : Member α μ ι) (ms : List (Member α μ ι)) :
    keepAll cache (m :: ms) = keepAll (keep cache m.animation).value ms :=
  rfl

/-- The members of two groups leave their values one group after the other. -/
@[simp]
theorem keepAll_append (cache : Cache α) (ms ns : List (Member α μ ι)) :
    keepAll cache (ms ++ ns) = keepAll (keepAll cache ms) ns :=
  List.foldl_append

/-- What is left of a group once time has passed, and what is kept then. -/
theorem value_advanceGroup (seconds : α) (g : Group α μ ι) (cache : Cache α) :
    (advanceGroup seconds g cache).value =
      (Group.survivors seconds g, keepAll cache (Group.leavers seconds g)) := by
  induction g generalizing cache with
  | nil => rfl
  | cons m ms ih =>
      cases ended : (m.animation.advance seconds).value.finished <;>
        simp [advanceGroup, ended, ih, Group.survivors, Group.leavers, Member.advanced,
          Animation.advanced, Member.finished]

/-- The members of a group have their turns one after the other. -/
theorem moments_advanceGroup (seconds : α) (g : Group α μ ι) (cache : Cache α) :
    (advanceGroup seconds g cache).moments = g.flatMap (·.animation.turn seconds) := by
  induction g generalizing cache with
  | nil => rfl
  | cons m ms ih =>
      cases ended : (m.animation.advance seconds).value.finished <;>
        simp [advanceGroup, ended, ih, Animation.turn, Animation.advanced]

/-- The running group gives way exactly when nobody survives in it; no other group
changes. -/
theorem chain_advance (s : Scheduler α μ ι) (seconds : α) :
    (s.advance seconds).value.chain =
      if (Group.survivors seconds s.head).isEmpty then s.chain.tail
      else Group.survivors seconds s.head :: s.chain.tail := by
  rcases s with ⟨_ | ⟨g, gs⟩, cache, nextId⟩
  · rfl
  · simp [advance, head, value_advanceGroup]

/-- A group of the chain once time has passed is what is left of the running one, or
one that waited before. -/
theorem mem_chain_advance {s : Scheduler α μ ι} {seconds : α} {g : Group α μ ι}
    (h : g ∈ (s.advance seconds).value.chain) :
    (s.head ∈ s.chain ∧ g = Group.survivors seconds s.head) ∨ g ∈ s.chain := by
  rw [chain_advance] at h
  rcases s with ⟨_ | ⟨running, waiting⟩, cache, nextId⟩
  · simp [head] at h
  · cases nobody : (Group.survivors seconds running).isEmpty with
    | true => exact .inr (List.mem_cons_of_mem _ (by simpa [head, nobody] using h))
    | false =>
        have h : g = Group.survivors seconds running ∨ g ∈ waiting := by
          simpa [head, nobody] using h
        rcases h with rfl | h
        · exact .inl ⟨by simp [head], rfl⟩
        · exact .inr (List.mem_cons_of_mem _ h)

/-- The values of those who leave the running group are kept. -/
theorem cache_advance (s : Scheduler α μ ι) (seconds : α) :
    (s.advance seconds).value.cache = keepAll s.cache (Group.leavers seconds s.head) := by
  rcases s with ⟨_ | ⟨g, gs⟩, cache, nextId⟩
  · rfl
  · simp [advance, head, value_advanceGroup]

/-- Time gives no number. -/
@[simp]
theorem nextId_advance (s : Scheduler α μ ι) (seconds : α) :
    (s.advance seconds).value.nextId = s.nextId := by
  rcases s with ⟨_ | ⟨g, gs⟩, cache, nextId⟩ <;> rfl

/-- What is noticed while time passes is noticed in the turns of the running members. -/
theorem moments_advance (s : Scheduler α μ ι) (seconds : α) :
    (s.advance seconds).moments = s.head.flatMap (·.animation.turn seconds) := by
  rcases s with ⟨_ | ⟨g, gs⟩, cache, nextId⟩
  · rfl
  · simp [advance, head, moments_advanceGroup]

/-- The survivors stay in front of everybody who waits. -/
theorem members_advance (s : Scheduler α μ ι) (seconds : α) :
    (s.advance seconds).value.members =
      Group.survivors seconds s.head ++ s.chain.tail.flatten := by
  rw [members, chain_advance]
  cases h : Group.survivors seconds s.head <;> simp

end Scheduler

end CameraMotion
