import CameraMotion.Proofs.Keeping
import CameraMotion.Proofs.Ownership

/-!
# Turn by turn

While time passes, the members of the running group have their turns one after the other.
In its turn an animation is advanced once; if it is over then, it is told of its finish
and leaves its values behind, and it has left its group and the arena before the next
turn begins.  Nobody is passed over because somebody else has left, and nobody outside
the running group is asked for anything.

Main results:

- Theorems `ArenaScheduler.advanceGroup_append` and `ArenaScheduler.advanceGroup_turn`: a
  group has its turns one after the other.
- Theorem `Scheduler.log_advance`: everything that happens while time passes, happens in
  the turns of the running members.
- Theorem `ArenaScheduler.turnByTurn_of_tidy`: what every member finds when its turn
  comes, and what is left in the end.
-/

namespace CameraMotion

variable {α μ ι : Type} [Scalar α] [Motion α μ]

/-- Everything that happens in the turn of an animation: it is advanced, and if it is over
then, it is told of its finish and asked for its values. -/
def Animation.turnLog (seconds : α) (a : Animation α μ ι) : List (Event α μ ι) :=
  (a.advance seconds).log ++
    if (a.advanced seconds).finished then
      ((a.advanced seconds).tell .finish).log ++ (a.advanced seconds).snapshot.log
    else []

namespace Scheduler

/-- To keep the values of an animation logs what it logs to read them. -/
theorem log_keep (cache : Cache α) (a : Animation α μ ι) :
    (keep cache a).log = a.snapshot.log := by
  simp [keep]

/-- What is logged in a group is logged in the turns of its members. -/
theorem log_advanceGroup (seconds : α) (g : Group α μ ι) (cache : Cache α) :
    (advanceGroup seconds g cache).log = g.flatMap (·.animation.turnLog seconds) := by
  induction g generalizing cache with
  | nil => rfl
  | cons m ms ih =>
      cases ended : (m.animation.advance seconds).value.finished <;>
        simp [advanceGroup, ended, ih, Animation.turnLog, Animation.advanced, log_keep]

/-- Everything that happens while time passes, happens in the turns of the running
members, one after the other. -/
theorem log_advance (s : Scheduler α μ ι) (seconds : α) :
    (s.advance seconds).log = s.head.flatMap (·.animation.turnLog seconds) := by
  rcases s with ⟨_ | ⟨g, gs⟩, cache, nextId⟩
  · rfl
  · simp [advance, head, log_advanceGroup]

end Scheduler

namespace ArenaScheduler

open Scheduler (keepAll)

/-- The turn of the animation with a number: the numbers that stay in the group, and what
the scheduler has then. -/
def turn (seconds : α) (id : Nat) (store : Store α μ ι) :
    Watched α μ ι (List Nat × Store α μ ι) :=
  match store.arena[id]? with
  | none => pure ([], store.miss id)
  | some a => do
      let a ← a.advance seconds
      if a.finished then
        a.tell .finish
        let cache ← Scheduler.keep store.cache a
        pure ([], { store with arena := store.arena.erase id, cache := cache })
      else
        pure ([id], { store with arena := store.arena.insert id a })

/-- The first of some numbers has its turn before the others. -/
theorem advanceGroup_turn (seconds : α) (id : Nat) (ids : List Nat) (store : Store α μ ι) :
    advanceGroup seconds (id :: ids) store = (do
      let (here, store) ← turn seconds id store
      let (rest, store) ← advanceGroup seconds ids store
      pure (here ++ rest, store)) := by
  rw [advanceGroup, turn]
  cases found : store.arena[id]? with
  | none => ext1 <;> simp
  | some a => cases ended : (a.advance seconds).value.finished <;> ext1 <;> simp [ended]

/-- Some numbers have their turns before the others. -/
theorem advanceGroup_append (seconds : α) (ids jds : List Nat) (store : Store α μ ι) :
    advanceGroup seconds (ids ++ jds) store = (do
      let (left, store) ← advanceGroup seconds ids store
      let (rest, store) ← advanceGroup seconds jds store
      pure (left ++ rest, store)) := by
  induction ids generalizing store with
  | nil => ext1 <;> simp [advanceGroup]
  | cons id ids ih =>
      rw [List.cons_append, advanceGroup_turn, advanceGroup_turn]
      ext1 <;> simp [ih]

/-- How time passes in a scheduler, turn by turn. -/
structure TurnByTurn (s : Scheduler α μ ι) (seconds : α) : Prop where
  /-- The scheduler with its animations in an arena does the same as the one with its
  animations in the chain. -/
  same : (of s).advance seconds = of <$> s.advance seconds
  /-- The running group has its turns, and is dropped when nobody is left in it. -/
  loop : (of s).advance seconds = (do
    let (left, store) ← advanceGroup seconds (s.head.map (·.id)) (of s).store
    pure ⟨if left.isEmpty then s.groups.tail else left :: s.groups.tail, store⟩)
  /-- When the turn of a member comes, those before it have had theirs.  Who of them is
  over has left the group and the arena and its values are kept; everybody else is there,
  in the old order, and those behind are as they were. -/
  turns : ∀ before m after, s.head = before ++ m :: after → ∃ store : Store α μ ι,
    Holds store.arena
      (Group.survivors seconds before ++ m :: after ++ s.chain.tail.flatten) ∧
    store.cache = keepAll s.cache (Group.leavers seconds before) ∧
    advanceGroup seconds (s.head.map (·.id)) (of s).store = (do
      Logged.emit (before.flatMap (·.animation.turnLog seconds))
      let (here, store) ← turn seconds m.id store
      let (rest, store) ← advanceGroup seconds (after.map (·.id)) store
      pure ((Group.survivors seconds before).map (·.id) ++ here ++ rest, store))
  /-- Nothing happens to anybody but in the turns of the running members, and each of
  them has one. -/
  log : (s.advance seconds).log = s.head.flatMap (·.animation.turnLog seconds)
  /-- The survivors stay in front, in the old order; when there are none the next group
  takes their place.  The groups that wait are left as they were. -/
  chain : (s.advance seconds).value.chain =
    if (Group.survivors seconds s.head).isEmpty then s.chain.tail
    else Group.survivors seconds s.head :: s.chain.tail
  /-- Who is over leaves a value behind wherever it declares the channel and drives it. -/
  saved : ∀ c, (s.advance seconds).value.cache.find? c =
    (Group.bequest c (Group.leavers seconds s.head)).or (s.cache.find? c)

/-- The running group has its turns, and is dropped when nobody is left in it. -/
theorem advance_of_eq {s : Scheduler α μ ι} (h : s.Tidy) (seconds : α) :
    (of s).advance seconds = (do
      let (left, store) ← advanceGroup seconds (s.head.map (·.id)) (of s).store
      pure ⟨if left.isEmpty then s.groups.tail else left :: s.groups.tail, store⟩) := by
  rcases s with ⟨_ | ⟨g, gs⟩, cache, nextId⟩
  · rfl
  · have waiting := dropWhile_groups fun hg => h.inhabited (List.mem_cons_of_mem _ hg)
    have front : (of ⟨g :: gs, cache, nextId⟩).chain.dropWhile (·.isEmpty) =
        g.map (·.id) :: gs.map fun g => g.map (·.id) :=
      dropWhile_groups h.inhabited
    rw [advance, front]
    dsimp only [Scheduler.head, Scheduler.groups, List.headD_cons, List.map_cons, List.tail_cons]
    refine congrArg _ (funext fun result => ?_)
    rcases result with ⟨_ | ⟨id, left⟩, store⟩
    · simp [waiting]
    · rfl

/-- What a member of the running group finds when its turn comes. -/
theorem exists_store_of_head {s : Scheduler α μ ι} (h : s.Tidy) (seconds : α)
    {before after : Group α μ ι} {m : Member α μ ι} (split : s.head = before ++ m :: after) :
    ∃ store : Store α μ ι,
      Holds store.arena
        (Group.survivors seconds before ++ m :: after ++ s.chain.tail.flatten) ∧
      store.cache = keepAll s.cache (Group.leavers seconds before) ∧
      advanceGroup seconds (s.head.map (·.id)) (of s).store = (do
        Logged.emit (before.flatMap (·.animation.turnLog seconds))
        let (here, store) ← turn seconds m.id store
        let (rest, store) ← advanceGroup seconds (after.map (·.id)) store
        pure ((Group.survivors seconds before).map (·.id) ++ here ++ rest, store)) := by
  have all : s.members = before ++ (m :: after ++ s.chain.tail.flatten) := by
    rw [Scheduler.members_eq, split, List.append_assoc]
  have holds : Holds (of s).store.arena (before ++ (m :: after ++ s.chain.tail.flatten)) :=
    all ▸ holds_arenaOf h.ids
  rcases advanceGroup_eq seconds (of s).store holds (all ▸ h.ids) with ⟨arena, holds, eq⟩
  rw [Scheduler.value_advanceGroup] at holds
  refine ⟨{ (of s).store with
    arena := arena, cache := keepAll s.cache (Group.leavers seconds before) }, ?_, rfl, ?_⟩
  · rw [List.append_assoc]
    exact holds
  · have others : (before ++ m :: after).map (·.id) =
        before.map (·.id) ++ m.id :: after.map (·.id) := by simp
    rw [split, others, advanceGroup_append, eq]
    ext1 <;> simp [advanceGroup_turn, Scheduler.value_advanceGroup, Scheduler.log_advanceGroup,
      of]

/-- In a tidy scheduler, time passes turn by turn. -/
theorem turnByTurn_of_tidy {s : Scheduler α μ ι} (h : s.Tidy) (seconds : α) :
    TurnByTurn s seconds where
  same := advance_eq h seconds
  loop := advance_of_eq h seconds
  turns _ _ _ split := exists_store_of_head h seconds split
  log := s.log_advance seconds
  chain := s.chain_advance seconds
  saved c := by rw [Scheduler.cache_advance, Scheduler.find?_keepAll]

end ArenaScheduler

end CameraMotion
