import CameraMotion.Proofs.Arena

/-!
# Chain and arena agree

A scheduler with its animations in an arena does the same as the one with its
animations in the chain, operation after operation.  So the arena has an animation
for every number in the chain, and for no other; no group is ever empty; and nobody
ever looks for an animation that is not there.

Main results:

- Theorem `ArenaScheduler.step_eq`: every operation does the same in both schedulers.
- Theorem `ArenaScheduler.run_eq`: and so does every run.
- Theorem `ArenaScheduler.run_agrees`: chain and arena agree after every run, and an
  animation is there until it finishes, is evicted or is cleared.
-/

namespace CameraMotion.ArenaScheduler

variable {α μ ι : Type}

/-! ## Operations on numbers -/

/-- The scheduler with its animations in an arena that has those of another one. -/
def of (s : Scheduler α μ ι) : ArenaScheduler α μ ι :=
  ⟨s.groups, ⟨arenaOf s.members, s.nextId, s.cache, []⟩⟩

variable [Scalar α] [Motion α μ] {s : Scheduler α μ ι}

/-- An insertion does the same in both schedulers, and gives the next number. -/
theorem add_eq (h : s.Tidy) (a : Animation α μ ι) (force : Bool) :
    (of s).add a force = (fun s' => (s.nextId, of s')) <$> s.add a force := by
  have all : s.chain.flatten ++ [] = s.members := List.append_nil _
  have holds : Holds (of s).store.arena (s.chain.flatten ++ []) :=
    all ▸ holds_arenaOf h.ids
  rcases place_eq a force (of s).store holds (all ▸ h.ids) (all ▸ h.given) with
    ⟨arena, holds, eq⟩
  rw [List.append_nil] at holds
  have same : arena = arenaOf (s.add a force).value.members :=
    holds.unique (holds_arenaOf (Scheduler.tidy_add h a force).ids)
  subst same
  have numbers : (of s).chain = s.chain.map fun g => g.map (·.id) := rfl
  rw [add, numbers, eq]
  ext1 <;> simp [Scheduler.add, of, Scheduler.groups, Scheduler.members]

omit [Scalar α] [Motion α μ] in
/-- No empty groups are in front of the chain. -/
theorem dropWhile_groups {gs : List (Group α μ ι)} (inhabited : [] ∉ gs) :
    (gs.map fun g => g.map (·.id)).dropWhile (·.isEmpty) = gs.map fun g => g.map (·.id) := by
  rcases gs with _ | ⟨_ | ⟨m, ms⟩, gs⟩
  · rfl
  · simp at inhabited
  · rfl

/-- Time passes alike in both schedulers, and no empty group is ever in front. -/
theorem advance_eq (h : s.Tidy) (seconds : α) :
    (of s).advance seconds = of <$> s.advance seconds := by
  rcases s with ⟨_ | ⟨g, gs⟩, cache, nextId⟩
  · rfl
  · have tidy := Scheduler.tidy_advance h seconds
    have held : Holds (arenaOf (g ++ gs.flatten)) (g ++ gs.flatten) := holds_arenaOf h.ids
    have members : (Scheduler.advance ⟨g :: gs, cache, nextId⟩ seconds).value.members =
        (Scheduler.advanceGroup seconds g cache).value.1 ++ gs.flatten := by
      rw [Scheduler.members_advance, Scheduler.value_advanceGroup]
      rfl
    rcases advanceGroup_eq seconds ⟨arenaOf (g ++ gs.flatten), nextId, cache, []⟩ held h.ids with
      ⟨arena, holds, eq⟩
    have same : arena =
        arenaOf (Scheduler.advance ⟨g :: gs, cache, nextId⟩ seconds).value.members :=
      holds.unique (members ▸ holds_arenaOf tidy.ids)
    have waiting := dropWhile_groups fun hg => h.inhabited (List.mem_cons_of_mem _ hg)
    have front : (of ⟨g :: gs, cache, nextId⟩).chain.dropWhile (·.isEmpty) =
        g.map (·.id) :: gs.map fun g => g.map (·.id) :=
      dropWhile_groups h.inhabited
    rw [advance, front]
    dsimp only [of, Scheduler.members]
    rw [List.flatten_cons, eq, same]
    cases left : (Scheduler.advanceGroup seconds g cache).value.1 with
    | nil => ext1 <;> simp [Scheduler.advance, left, of, Scheduler.groups, waiting]
    | cons m ms => ext1 <;> simp [Scheduler.advance, left, of, Scheduler.groups]

omit [Scalar α] [Motion α μ] in
/-- The running animations are found under the numbers of the running group. -/
theorem running_eq (h : s.Tidy) :
    ((of s).chain.headD []).filterMap ((of s).store.arena[·]?) = s.head.map (·.animation) := by
  have numbers : (of s).chain.headD [] = s.head.map (·.id) := by
    rcases s with ⟨_ | ⟨g, gs⟩, cache, nextId⟩ <;> rfl
  rw [numbers, List.filterMap_map, ← List.filterMap_eq_map]
  refine List.filterMap_congr fun m hm => ?_
  exact (holds_arenaOf h.ids).found (Scheduler.mem_members_of_mem_head hm)

/-- To read off the arena is to read off the members. -/
theorem read_eq (h : s.Tidy) (c : Channel) (fallback : PropertyValue α) :
    (of s).read c fallback = (fun r => (r.1, of r.2)) <$> s.read c fallback := by
  have find : (((of s).chain.headD []).filterMap ((of s).store.arena[·]?)).find? (·.exposes c) =
      (s.head.find? (·.animation.exposes c)).map (·.animation) := by
    rw [running_eq h, List.find?_map]
    rfl
  rw [read, Scheduler.read]
  dsimp only
  rw [find]
  cases found : s.head.find? (·.animation.exposes c) with
  | none => rfl
  | some m => ext1 <;> simp

/-- The visible part of the map plane is the same for the arena and for the members. -/
theorem rect_eq (h : s.Tidy) (v : Viewport α) :
    (of s).rect v = (fun r => (r.1, of r.2)) <$> s.rect v := by
  have tidy : ∀ {s : Scheduler α μ ι}, s.Tidy → ∀ c fallback, (s.read c fallback).value.2.Tidy :=
    fun h c fallback => Scheduler.tidy_step h (.read c fallback)
  ext1 <;> simp [rect, Scheduler.rect, read_eq h, read_eq (tidy h _ _),
    read_eq (tidy (tidy h _ _) _ _)]

/-- To keep values from outside is the same for the arena and for the members. -/
theorem save_eq (a : Animation α μ ι) : (of s).save a = of <$> s.save a := by
  ext1 <;> simp [save, Scheduler.save, of, Scheduler.groups, Scheduler.members]

omit [Scalar α] [Motion α μ] in
/-- To drop everything is the same for the arena and for the members. -/
theorem clear_eq : (of s).clear = of s.clear := by
  simp [clear, Scheduler.clear, of, Scheduler.groups, Scheduler.members, arenaOf]

/-- Every operation does the same to a scheduler with its animations in the chain and to
the one with its animations in an arena. -/
theorem step_eq (h : s.Tidy) (op : Operation α μ ι) : (of s).step op = of <$> s.step op := by
  cases op with
  | add a force => ext1 <;> simp [step, Scheduler.step, add_eq h]
  | advance seconds => exact advance_eq h seconds
  | read c fallback => ext1 <;> simp [step, Scheduler.step, read_eq h]
  | rect v => ext1 <;> simp [step, Scheduler.step, rect_eq h]
  | save a => exact save_eq a
  | clear => ext1 <;> simp [step, Scheduler.step, clear_eq]

/-- Several operations do the same with the arena as with the members. -/
theorem runFrom_eq (h : s.Tidy) (ops : List (Operation α μ ι)) :
    (of s).runFrom ops = of <$> s.runFrom ops := by
  induction ops generalizing s with
  | nil => rfl
  | cons op ops ih =>
      ext1 <;> simp [runFrom, Scheduler.runFrom, step_eq h, ih (Scheduler.tidy_step h op)]

/-- Every run does the same to a scheduler with its animations in the chain and to the
one with its animations in an arena. -/
theorem run_eq (ops : List (Operation α μ ι)) :
    (run ops : Watched α μ ι (ArenaScheduler α μ ι)) = of <$> Scheduler.run ops :=
  runFrom_eq (Scheduler.tidy_run []) ops

/-! ## Agreement -/

/-- The numbers in the chain and the animations in the arena belong together. -/
structure Agrees (t : ArenaScheduler α μ ι) : Prop where
  /-- No number is in the chain twice. -/
  distinct : t.chain.flatten.Nodup
  /-- The numbers in the chain are those under which there is an animation. -/
  owned : ∀ id, id ∈ t.chain.flatten ↔ t.isRunning id = true
  inhabited : [] ∉ t.chain
  /-- Nobody has looked for an animation that was not there. -/
  found : t.store.missing = []
  hasAnimations : t.hasAnimations = true ↔ 0 < t.chain.length

omit [Scalar α] [Motion α μ] in
/-- The numbers in the chain are those of the members. -/
theorem flatten_chain_of (s : Scheduler α μ ι) :
    (of s).chain.flatten = s.members.map (·.id) :=
  List.map_flatten.symm

omit [Scalar α] [Motion α μ] in
/-- The arena has an animation exactly when a member has its number. -/
theorem isRunning_of (h : s.Tidy) (id : Nat) : (of s).isRunning id = s.isRunning id := by
  have holds := holds_arenaOf h.ids id
  rw [Bool.eq_iff_iff, isRunning, Std.ExtTreeMap.contains_eq_isSome_getElem?,
    Option.isSome_iff_exists, Scheduler.isRunning_iff]
  constructor
  · rintro ⟨a, found⟩
    exact ⟨⟨id, a⟩, (holds a).mp found, rfl⟩
  · rintro ⟨m, hm, rfl⟩
    exact ⟨m.animation, (holds m.animation).mpr hm⟩

omit [Scalar α] [Motion α μ] in
/-- An animation is there when it is there under some number. -/
theorem hasAnimations_iff {t : ArenaScheduler α μ ι} :
    t.hasAnimations = true ↔ ∃ id, t.isRunning id = true := by
  rw [hasAnimations, Bool.not_eq_true', Std.ExtTreeMap.isEmpty_eq_false_iff,
    Std.ExtTreeMap.eq_empty_iff_forall_contains, not_forall]
  exact exists_congr fun id => by rw [Bool.not_eq_false, isRunning]

omit [Scalar α] [Motion α μ] in
/-- Chain and arena agree when they have the same animations. -/
theorem agrees_of (h : s.Tidy) : Agrees (of s) := by
  have owned : ∀ id, id ∈ (of s).chain.flatten ↔ (of s).isRunning id = true := by
    intro id
    rw [flatten_chain_of, isRunning_of h, Scheduler.isRunning_iff_mem_ids]
  have inhabited : [] ∉ (of s).chain := by
    intro hg
    rcases List.mem_map.mp hg with ⟨g, hg, empty⟩
    rw [List.map_eq_nil_iff] at empty
    exact h.inhabited (empty ▸ hg)
  refine ⟨?_, owned, inhabited, rfl, ?_⟩
  · rw [flatten_chain_of]
    exact h.ids
  · rw [hasAnimations_iff, List.length_pos_iff]
    constructor
    · rintro ⟨id, there⟩ none
      rw [← owned, none] at there
      simp at there
    · intro some
      rcases List.exists_mem_of_ne_nil _ some with ⟨ids, hids⟩
      have other : ids ≠ [] := fun empty => inhabited (empty ▸ hids)
      rcases List.exists_mem_of_ne_nil _ other with ⟨id, hid⟩
      exact ⟨id, (owned id).mp (List.mem_flatten.mpr ⟨ids, hids, hid⟩)⟩

/-- After every run, chain and arena agree, and the scheduler is in the state in which
the one with its animations in the chain is.  From its insertion on, an animation is
there under the number that it got, until the first operation with which it finishes,
is evicted or is cleared, and never again. -/
theorem run_agrees :
    (∀ ops : List (Operation α μ ι),
      run ops = of <$> Scheduler.run ops ∧ Agrees (run ops).value) ∧
    ∀ (before : List (Operation α μ ι)) (a : Animation α μ ι) (force : Bool)
      (after : List (Operation α μ ι)),
      let id := ((run before).value.add a force).value.1
      (run (before ++ .add a force :: after)).value.isRunning id = true ↔
        ∀ past op rest, after = past ++ op :: rest →
          ¬(Scheduler.run (before ++ .add a force :: past)).value.Departs id op := by
  have value : ∀ ops : List (Operation α μ ι), (run ops).value = of (Scheduler.run ops).value :=
    fun ops => congrArg Logged.value (run_eq ops)
  constructor
  · intro ops
    refine ⟨run_eq ops, ?_⟩
    rw [value]
    exact agrees_of (Scheduler.tidy_run ops)
  · intro before a force after
    have number : ((run before).value.add a force).value.1 =
        (Scheduler.run before).value.nextId := by
      rw [value, add_eq (Scheduler.tidy_run before), Logged.value_map]
    dsimp only
    rw [number, value, isRunning_of (Scheduler.tidy_run _)]
    exact Scheduler.isRunning_run before a force after

end CameraMotion.ArenaScheduler
