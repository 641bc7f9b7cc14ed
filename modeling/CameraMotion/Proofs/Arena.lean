import CameraMotion.Proofs.Members
import CameraMotion.Scheduler.Arena

/-!
# Loops over numbers

A scheduler with its animations in an arena goes through the numbers of a group where
the other one goes through members.  As long as the arena has the animations of the
chain, its loops never meet a number without an animation: they do what the loops over
members do, and the arena is left with the animations of the members that are left.

Main results:

- Theorem `Holds.unique`: what an arena holds determines it.
- Theorems `ArenaScheduler.scan_eq`, `ArenaScheduler.place_eq` and
  `ArenaScheduler.advanceGroup_eq`: the loops over numbers, and what they leave.
-/

namespace CameraMotion

variable {α μ ι : Type}

/-! ## What an arena holds -/

section Holding

variable {x y : Std.ExtTreeMap Nat (Animation α μ ι)} {m : Member α μ ι} {ms ns : Group α μ ι}

/-- The arena has the animations of some members, and no others. -/
def Holds (arena : Std.ExtTreeMap Nat (Animation α μ ι)) (ms : Group α μ ι) : Prop :=
  ∀ id a, arena[id]? = some a ↔ ⟨id, a⟩ ∈ ms

/-- The arena that has the animations of some members. -/
def arenaOf (ms : Group α μ ι) : Std.ExtTreeMap Nat (Animation α μ ι) :=
  ms.foldr (fun m arena => arena.insert m.id m.animation) ∅

/-- A member is found under its number. -/
theorem Holds.found (h : Holds x ms) (hm : m ∈ ms) : x[m.id]? = some m.animation :=
  (h m.id m.animation).mpr hm

/-- An arena does not know of any order among the members. -/
theorem Holds.perm (h : Holds x ms) (perm : ms.Perm ns) : Holds x ns :=
  fun id a => (h id a).trans perm.mem_iff

/-- What an arena holds determines it. -/
theorem Holds.unique (hx : Holds x ms) (hy : Holds y ms) : x = y := by
  refine Std.ExtTreeMap.ext_getElem? fun id => Option.ext fun a => ?_
  rw [hx id a, hy id a]

/-- A member with a number of its own is put in, whatever the arena had there. -/
theorem Holds.put {id : Nat} (h : ∀ k ≠ id, ∀ a, x[k]? = some a ↔ ⟨k, a⟩ ∈ ms)
    (fresh : id ∉ ms.map (·.id)) (b : Animation α μ ι) :
    Holds (x.insert id b) (⟨id, b⟩ :: ms) := by
  intro k a
  by_cases here : k = id
  · subst here
    have outside : (⟨k, a⟩ : Member α μ ι) ∉ ms := fun hm => fresh (List.mem_map_of_mem hm)
    simp [outside, eq_comm]
  · simp [Std.ExtTreeMap.getElem?_insert, h k here a, here, Ne.symm here]

/-- A new member is put in beside the others. -/
theorem Holds.insert {id : Nat} (h : Holds x ms) (fresh : id ∉ ms.map (·.id))
    (b : Animation α μ ι) : Holds (x.insert id b) (⟨id, b⟩ :: ms) :=
  .put (fun k _ a => h k a) fresh b

/-- A member is put in again in its new state. -/
theorem Holds.replace (h : Holds x (m :: ms)) (fresh : m.id ∉ ms.map (·.id))
    (b : Animation α μ ι) : Holds (x.insert m.id b) (⟨m.id, b⟩ :: ms) := by
  refine .put (fun k other a => ?_) fresh b
  rw [h k a, List.mem_cons, or_iff_right]
  rintro rfl
  exact other rfl

/-- A member is taken out. -/
theorem Holds.erase (h : Holds x (m :: ms)) (fresh : m.id ∉ ms.map (·.id)) :
    Holds (x.erase m.id) ms := by
  intro k a
  by_cases here : k = m.id
  · subst here
    have outside : (⟨m.id, a⟩ : Member α μ ι) ∉ ms :=
      fun hm => fresh (List.mem_map.mpr ⟨_, hm, rfl⟩)
    simp [outside]
  · have other : (⟨k, a⟩ : Member α μ ι) ≠ m := by
      rintro rfl
      exact here rfl
    simp [Std.ExtTreeMap.getElem?_erase, h k a, other, Ne.symm here]

/-- The arena that has the animations of some members has them and no others, when they
have numbers of their own. -/
theorem holds_arenaOf (distinct : (ms.map (·.id)).Nodup) : Holds (arenaOf ms) ms := by
  induction ms with
  | nil => simp [Holds, arenaOf]
  | cons m ms ih =>
      rw [List.map_cons, List.nodup_cons] at distinct
      exact (ih distinct.2).insert distinct.1 m.animation

end Holding

namespace ArenaScheduler

/-! ## Loops over numbers -/

section Loops

variable [Scalar α] [Motion α μ]

/-- An animation that is found is told of its interruption, leaves its values behind and is
taken out. -/
theorem evict_eq {store : Store α μ ι} {id : Nat} {a : Animation α μ ι}
    (found : store.arena[id]? = some a) :
    store.evict id = (do
      a.tell .interrupt
      let cache ← Scheduler.keep store.cache a
      pure { store with arena := store.arena.erase id, cache := cache }) := by
  simp [Store.evict, found]

/-- Members of a group whose numbers all have an animation are asked as the animations
are, and the arena is left with those who stay. -/
theorem scan_eq (candidate : Animation α μ ι) (force : Bool) {g others : Group α μ ι}
    (store : Store α μ ι) (holds : Holds store.arena (g ++ others))
    (distinct : ((g ++ others).map (·.id)).Nodup) :
    ∃ arena,
      Holds arena ((Scheduler.scan candidate force g store.cache).value.kept ++ others) ∧
        scan candidate force (g.map (·.id)) store =
          (fun r => ⟨r.accepted, r.kept.map (·.id),
            { store with arena := arena, cache := r.cache }⟩) <$>
              Scheduler.scan candidate force g store.cache := by
  induction g generalizing others store with
  | nil => exact ⟨store.arena, holds, rfl⟩
  | cons m ms ih =>
      have here := holds.found (m := m) (by simp)
      have apart := distinct
      rw [List.cons_append, List.map_cons, List.nodup_cons] at apart
      cases shares : (m.animation.canShareGroup candidate).value with
      | true =>
          -- Who stays is one of the others when the rest of the group is asked.
          have moved : (m :: ms ++ others).Perm (ms ++ m :: others) := List.perm_middle.symm
          rcases ih store (holds.perm moved) ((moved.map _).nodup_iff.mp distinct) with
            ⟨arena, holds, eq⟩
          refine ⟨arena, holds.perm ?_, ?_⟩
          · simp [Scheduler.scan, shares]
          · ext1 <;> simp [scan, here, shares, Scheduler.scan, eq]
      | false =>
          cases removable : force && m.animation.interruptible with
          | true =>
              rcases ih ⟨store.arena.erase m.id, store.nextId,
                (Scheduler.keep store.cache m.animation).value, store.missing⟩
                (holds.erase apart.1) apart.2 with ⟨arena, holds, eq⟩
              refine ⟨arena, ?_, ?_⟩
              · simpa [Scheduler.scan, shares, removable] using holds
              · ext1 <;> simp [scan, here, shares, removable, Scheduler.scan, eq, evict_eq]
          | false =>
              refine ⟨store.arena, ?_, ?_⟩
              · simpa [Scheduler.scan, shares, removable] using holds
              · ext1 <;> simp [scan, here, shares, removable, Scheduler.scan]

/-- A place is found among groups of numbers as it is among groups of animations, and
the arena is left with those who are in the chain then. -/
theorem place_eq (a : Animation α μ ι) (force : Bool) {chain : List (Group α μ ι)}
    {others : Group α μ ι} (store : Store α μ ι)
    (holds : Holds store.arena (chain.flatten ++ others))
    (distinct : ((chain.flatten ++ others).map (·.id)).Nodup)
    (given : ∀ m ∈ chain.flatten ++ others, m.id < store.nextId) :
    ∃ arena,
      Holds arena ((Scheduler.place ⟨store.nextId, a⟩ force chain store.cache).value.1.flatten ++
          others) ∧
        place a force (chain.map fun g => g.map (·.id)) store =
          (fun r => (store.nextId, r.1.map (fun g => g.map (·.id)),
            ⟨arena, store.nextId + 1, r.2, store.missing⟩)) <$>
              Scheduler.place ⟨store.nextId, a⟩ force chain store.cache := by
  induction chain generalizing others store with
  | nil =>
      refine ⟨_, holds.insert (Group.next_not_mem_ids given) a, ?_⟩
      ext1 <;> simp [place, Scheduler.place, Store.insert]
  | cons g gs ih =>
      rw [List.flatten_cons, List.append_assoc] at holds distinct given
      have sub : (g.kept a force ++ (gs.flatten ++ others)).Sublist
          (g ++ (gs.flatten ++ others)) := (g.kept_sublist a force).append_right _
      have given' := fun m hm => given m (sub.subset hm)
      rcases scan_eq a force store holds distinct with ⟨arena, holds, eq⟩
      rw [Scheduler.value_scan] at holds
      cases refused : g.refuses a force with
      | false =>
          refine ⟨_, (holds.insert (Group.next_not_mem_ids given') a).perm ?_, ?_⟩
          · simp [Scheduler.place, Scheduler.value_scan, refused, List.perm_middle.symm]
          · ext1 <;> simp [place, eq, refused, Scheduler.place, Scheduler.value_scan, Store.insert]
      | true =>
          -- Who stays in this group is one of the others when the next ones are asked.
          have moved : (g.kept a force ++ (gs.flatten ++ others)).Perm
              (gs.flatten ++ (g.kept a force ++ others)) := List.perm_append_comm_assoc ..
          have apart := distinct.sublist (sub.map (·.id))
          rcases ih ⟨arena, store.nextId, Scheduler.keepAll store.cache (g.evicted a force),
            store.missing⟩ (holds.perm moved) ((moved.map _).nodup_iff.mp apart)
            (fun m hm => given' m (moved.symm.subset hm)) with ⟨arena', holds', eq'⟩
          refine ⟨arena', holds'.perm ?_, ?_⟩
          · simpa [Scheduler.place, Scheduler.value_scan, refused] using
              List.perm_append_comm_assoc ..
          · ext1 <;> simp [place, eq, eq', refused, Scheduler.place, Scheduler.value_scan]

/-- Time passes in the animations of a group as it does in the members. -/
theorem advanceGroup_eq (seconds : α) {g others : Group α μ ι} (store : Store α μ ι)
    (holds : Holds store.arena (g ++ others))
    (distinct : ((g ++ others).map (·.id)).Nodup) :
    ∃ arena,
      Holds arena ((Scheduler.advanceGroup seconds g store.cache).value.1 ++ others) ∧
        advanceGroup seconds (g.map (·.id)) store =
          (fun r => (r.1.map (·.id), { store with arena := arena, cache := r.2 })) <$>
            Scheduler.advanceGroup seconds g store.cache := by
  induction g generalizing others store with
  | nil => exact ⟨store.arena, holds, rfl⟩
  | cons m ms ih =>
      have here := holds.found (m := m) (by simp)
      have apart := distinct
      rw [List.cons_append, List.map_cons, List.nodup_cons] at apart
      cases ended : (m.animation.advance seconds).value.finished with
      | true =>
          rcases ih ⟨store.arena.erase m.id, store.nextId,
            (Scheduler.keep store.cache (m.animation.advance seconds).value).value, store.missing⟩
            (holds.erase apart.1) apart.2 with ⟨arena, holds, eq⟩
          refine ⟨arena, ?_, ?_⟩
          · simpa [Scheduler.advanceGroup, ended] using holds
          · ext1 <;> simp [advanceGroup, here, ended, Scheduler.advanceGroup, eq]
      | false =>
          let m' : Member α μ ι := ⟨m.id, (m.animation.advance seconds).value⟩
          have moved : (m' :: (ms ++ others)).Perm (ms ++ m' :: others) := List.perm_middle.symm
          have distinct' : ((m' :: (ms ++ others)).map (·.id)).Nodup := distinct
          rcases ih ⟨store.arena.insert m.id m'.animation, store.nextId, store.cache, store.missing⟩
            ((holds.replace apart.1 m'.animation).perm moved)
            ((moved.map _).nodup_iff.mp distinct') with ⟨arena, holds, eq⟩
          refine ⟨arena, holds.perm (List.perm_middle.trans ?_), ?_⟩
          · simp [Scheduler.advanceGroup, ended, m']
          · ext1 <;> simp [advanceGroup, here, ended, Scheduler.advanceGroup, eq, m']

end Loops

end ArenaScheduler

end CameraMotion
