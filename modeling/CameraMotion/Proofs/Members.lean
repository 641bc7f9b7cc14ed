import CameraMotion.Proofs.Scan
import Mathlib.Data.List.Nodup

/-!
# Members of the chain

Where the members of the chain come from and how they go.  A member is new, or was
there before, or has been advanced.  Members have numbers of their own, and no group
is ever empty: a group that loses members to a forced insertion takes the new one or
has a member that refuses it, and a running group that everybody has left gives way.

Main results:

- Theorem `Scheduler.origin_of_mem_step`: where members come from.
- Theorem `Scheduler.tidy_run`: after every run, members have numbers of their own, and
  no group is empty.
- Theorem `Scheduler.isRunning_step`: an animation goes when it finishes, is evicted or
  is cleared, and not otherwise.
- Theorem `Scheduler.isRunning_run`: so the scheduler has an inserted animation until
  that happens, and never again.
-/

namespace CameraMotion

variable {α μ ι : Type} [Motion α μ]

namespace Group

/-- The member that refuses stays. -/
theorem kept_ne_nil {candidate : Animation α μ ι} {force : Bool} {g : Group α μ ι}
    (h : g.refuses candidate force = true) : g.kept candidate force ≠ [] := by
  intro nobody
  rw [kept, List.append_eq_nil_iff, List.dropWhile_eq_nil_iff] at nobody
  rcases List.any_eq_true.mp h with ⟨m, hm, stands⟩
  have yields := nobody.2 m hm
  simp [stands] at yields

omit [Motion α μ] in
/-- A number above those of all members is none of theirs. -/
theorem next_not_mem_ids {ms : Group α μ ι} {next : Nat} (given : ∀ m ∈ ms, m.id < next) :
    next ∉ ms.map (·.id) := by
  intro taken
  rcases List.mem_map.mp taken with ⟨m, hm, same⟩
  exact Nat.ne_of_lt (given m hm) same

variable [Scalar α]

/-- The numbers of those who survive are among those of the group, in the same order. -/
theorem survivors_id_sublist (seconds : α) (g : Group α μ ι) :
    ((survivors seconds g).map (·.id)).Sublist (g.map (·.id)) := by
  have sub := List.filter_sublist (p := (!·.finished)) (l := g.map (·.advanced seconds))
  simpa [survivors, Member.advanced, Function.comp_def] using sub.map (·.id)

end Group

namespace Scheduler

variable [Scalar α] {s : Scheduler α μ ι}

/-! ## Where members come from -/

/-- After an operation, a member was there before, or time has passed in it, or it is
new. -/
theorem origin_of_mem_step {op : Operation α μ ι} {m : Member α μ ι}
    (h : m ∈ (s.step op).value.members) :
    m ∈ s.members ∨
      (∃ seconds, op = .advance seconds ∧ ∃ n ∈ s.head, n.advanced seconds = m) ∨
      ∃ a force, op = .add a force ∧ m = ⟨s.nextId, a⟩ := by
  have unchanged : ∀ s' : Scheduler α μ ι, s'.chain = s.chain → m ∈ s'.members →
      m ∈ s.members := by
    intro s' same hm
    rwa [members, same] at hm
  cases op with
  | add a force =>
      have perm := evictions_append_members_add_perm s a force
      rcases List.mem_cons.mp (perm.subset (List.mem_append_right _ h)) with new | hm
      · exact .inr (.inr ⟨a, force, rfl, new⟩)
      · exact .inl hm
  | advance seconds =>
      rw [step, members_advance] at h
      rw [members_eq]
      rcases List.mem_append.mp h with h | h
      · rcases Group.mem_survivors.mp h with ⟨advanced, _⟩
        exact .inr (.inl ⟨seconds, rfl, advanced⟩)
      · exact .inl (List.mem_append_right _ h)
  | read c fallback => exact .inl (unchanged _ (chain_read s c fallback) h)
  | rect v => exact .inl (unchanged _ (chain_rect s v) h)
  | save a => exact .inl (unchanged _ (chain_save s a) h)
  | clear => simp [step, clear, members] at h

omit [Scalar α] [Motion α μ] in
/-- The running members are members. -/
theorem mem_members_of_mem_head {m : Member α μ ι} (h : m ∈ s.head) : m ∈ s.members := by
  rw [members_eq]
  exact List.mem_append_left _ h

omit [Scalar α] [Motion α μ] in
/-- The numbers of all members are those of the running group and those of the groups that
wait. -/
theorem map_id_members (s : Scheduler α μ ι) :
    s.members.map (·.id) = s.head.map (·.id) ++ s.chain.tail.flatten.map (·.id) := by
  rw [members_eq, List.map_append]

/-! ## Numbers and groups -/

/-- Members have numbers of their own, all of them given before, and no group is
empty. -/
structure Tidy (s : Scheduler α μ ι) : Prop where
  ids : (s.members.map (·.id)).Nodup
  given : ∀ m ∈ s.members, m.id < s.nextId
  inhabited : [] ∉ s.chain

/-- The members after an insertion, and those who were removed, have numbers of their
own. -/
theorem Tidy.ids_add (h : Tidy s) (a : Animation α μ ι) (force : Bool) :
    ((evictions a force s.chain ++ (s.add a force).value.members).map (·.id)).Nodup := by
  have perm := evictions_append_members_add_perm s a force
  rw [(perm.map _).nodup_iff, List.map_cons, List.nodup_cons]
  exact ⟨Group.next_not_mem_ids h.given, h.ids⟩

/-- Every group has a member after an insertion. -/
theorem Tidy.inhabited_add (h : Tidy s) (a : Animation α μ ι) (force : Bool) :
    [] ∉ (s.add a force).value.chain := by
  intro hg
  rcases mem_chain_add hg with ⟨g, _, refuses, none⟩ | ⟨g, _, _, none⟩ | none | hg
  · exact Group.kept_ne_nil refuses none.symm
  · simp at none
  · simp at none
  · exact h.inhabited hg

/-- An insertion leaves the scheduler tidy. -/
theorem tidy_add (h : Tidy s) (a : Animation α μ ι) (force : Bool) :
    Tidy (s.add a force).value := by
  refine ⟨?_, ?_, h.inhabited_add a force⟩
  · have ids := h.ids_add a force
    rw [List.map_append] at ids
    exact ids.of_append_right
  · intro m hm
    rw [nextId_add]
    have perm := evictions_append_members_add_perm s a force
    rcases List.mem_cons.mp (perm.subset (List.mem_append_right _ hm)) with rfl | hm
    · exact Nat.lt_succ_self _
    · exact Nat.lt_succ_of_lt (h.given m hm)

/-- A step of time leaves the scheduler tidy. -/
theorem tidy_advance (h : Tidy s) (seconds : α) : Tidy (s.advance seconds).value := by
  constructor
  · have ids := h.ids
    rw [map_id_members] at ids
    rw [members_advance, List.map_append]
    exact ids.sublist ((Group.survivors_id_sublist seconds s.head).append_right _)
  · intro m hm
    rw [nextId_advance]
    have after : m ∈ (s.step (.advance seconds)).value.members := hm
    rcases origin_of_mem_step after with hm | ⟨_, _, n, hn, rfl⟩ | ⟨_, _, other, _⟩
    · exact h.given m hm
    · exact h.given n (mem_members_of_mem_head hn)
    · simp at other
  · rw [chain_advance]
    have waiting : [] ∉ s.chain.tail := fun hg => h.inhabited (List.mem_of_mem_tail hg)
    cases left : Group.survivors seconds s.head with
    | nil => simpa using waiting
    | cons m ms => simpa using waiting

/-- Every operation leaves the scheduler tidy. -/
theorem tidy_step (h : Tidy s) (op : Operation α μ ι) : Tidy (s.step op).value := by
  have unchanged : ∀ s' : Scheduler α μ ι, s'.chain = s.chain → s'.nextId = s.nextId →
      Tidy s' := by
    rintro ⟨chain, cache, nextId⟩ rfl rfl
    exact ⟨h.ids, h.given, h.inhabited⟩
  cases op with
  | add a force => exact tidy_add h a force
  | advance seconds => exact tidy_advance h seconds
  | read c fallback => exact unchanged _ (chain_read s c fallback) (nextId_read s c fallback)
  | rect v => exact unchanged _ (chain_rect s v) (nextId_rect s v)
  | save a => exact unchanged _ (chain_save s a) (nextId_save s a)
  | clear => exact ⟨by simp [step, clear, members], by simp [step, clear, members],
      by simp [step, clear]⟩

/-- After every run, members have numbers of their own, and no group is empty. -/
theorem tidy_run (ops : List (Operation α μ ι)) : Tidy (run ops).value := by
  refine run_invariant (P := Tidy) (Q := fun _ => True) ?_ (fun s op _ h => tidy_step h op) ops
    fun _ _ => trivial
  exact ⟨by simp [members, empty], by simp [members, empty], by simp [empty]⟩

/-! ## How animations go -/

/-- With this operation the animation with a number goes. -/
inductive Departs (s : Scheduler α μ ι) (id : Nat) : Operation α μ ι → Prop where
  /-- It runs, and is over once time has passed. -/
  | finished {seconds : α} {m : Member α μ ι} (hm : m ∈ s.head) (same : m.id = id)
      (ended : (m.advanced seconds).finished = true) : Departs s id (.advance seconds)
  /-- It is removed to make room for another one. -/
  | evicted {a : Animation α μ ι} {force : Bool} {m : Member α μ ι}
      (hm : m ∈ evictions a force s.chain) (same : m.id = id) : Departs s id (.add a force)
  | cleared : Departs s id .clear

omit [Scalar α] [Motion α μ] in
/-- An animation is still there when some member has its number. -/
theorem isRunning_iff {id : Nat} :
    s.isRunning id = true ↔ ∃ m ∈ s.members, m.id = id := by
  simp [isRunning]

omit [Scalar α] [Motion α μ] in
/-- An animation is still there when its number is one of those in the chain. -/
theorem isRunning_iff_mem_ids {id : Nat} :
    s.isRunning id = true ↔ id ∈ s.members.map (·.id) := by
  rw [isRunning_iff, List.mem_map]

/-- An insertion takes those away who are evicted, and nobody else. -/
theorem isRunning_add (h : Tidy s) {id : Nat} (given : id < s.nextId)
    (a : Animation α μ ι) (force : Bool) :
    (s.add a force).value.isRunning id = true ↔
      s.isRunning id = true ∧ id ∉ (evictions a force s.chain).map (·.id) := by
  have ids := h.ids_add a force
  have perm := (evictions_append_members_add_perm s a force).map (·.id)
  rw [List.map_append] at ids perm
  rw [isRunning_iff_mem_ids, isRunning_iff_mem_ids]
  constructor
  · intro stays
    constructor
    · rcases List.mem_cons.mp (perm.subset (List.mem_append_right _ stays)) with new | before
      · exact absurd new (Nat.ne_of_lt given)
      · exact before
    · intro removed
      exact (List.nodup_append.mp ids).2.2 id removed id stays rfl
  · rintro ⟨before, stays⟩
    have there := perm.symm.subset (List.mem_cons_of_mem _ before)
    exact (List.mem_append.mp there).resolve_left stays

/-- Time takes those away who run and are over then, and nobody else. -/
theorem isRunning_advance (h : Tidy s) (id : Nat) (seconds : α) :
    (s.advance seconds).value.isRunning id = true ↔
      s.isRunning id = true ∧
        ∀ m ∈ s.head, m.id = id → (m.advanced seconds).finished = false := by
  rw [isRunning_iff, isRunning_iff, members_advance]
  constructor
  · rintro ⟨m, hm, rfl⟩
    have alone : ∀ n ∈ s.head, ∀ n' ∈ s.members, n.id = n'.id → n = n' := fun n hn n' hn' =>
      List.inj_on_of_nodup_map h.ids (mem_members_of_mem_head hn) hn'
    rcases List.mem_append.mp hm with hm | hm
    · rcases Group.mem_survivors.mp hm with ⟨⟨n, hn, rfl⟩, stays⟩
      refine ⟨⟨n, mem_members_of_mem_head hn, rfl⟩, fun n' hn' same => ?_⟩
      rw [alone n' hn' n (mem_members_of_mem_head hn) same]
      exact stays
    · have before : m ∈ s.members := by
        rw [members_eq]
        exact List.mem_append_right _ hm
      refine ⟨⟨m, before, rfl⟩, fun n hn same => ?_⟩
      -- The numbers of the running group and of those who wait are apart.
      have ids := h.ids
      rw [map_id_members] at ids
      exact absurd same ((List.nodup_append.mp ids).2.2 n.id (List.mem_map_of_mem hn) m.id
        (List.mem_map_of_mem hm))
  · rintro ⟨⟨m, hm, rfl⟩, stays⟩
    rw [members_eq] at hm
    rcases List.mem_append.mp hm with hm | hm
    · refine ⟨m.advanced seconds, List.mem_append_left _ ?_, rfl⟩
      exact Group.mem_survivors.mpr ⟨⟨m, hm, rfl⟩, stays m hm rfl⟩
    · exact ⟨m, List.mem_append_right _ hm, rfl⟩

/-- An animation goes when it finishes, is evicted or is cleared, and not otherwise. -/
theorem isRunning_step (h : Tidy s) {id : Nat} (given : id < s.nextId)
    (op : Operation α μ ι) :
    (s.step op).value.isRunning id = true ↔ s.isRunning id = true ∧ ¬s.Departs id op := by
  have unchanged : ∀ s' : Scheduler α μ ι, s'.chain = s.chain → ¬s.Departs id op →
      (s'.isRunning id = true ↔ s.isRunning id = true ∧ ¬s.Departs id op) := by
    intro s' same stays
    rw [isRunning, isRunning, members, members, same, and_iff_left stays]
  cases op with
  | add a force =>
      rw [step, isRunning_add h given]
      refine and_congr_right fun _ => not_congr ?_
      rw [List.mem_map]
      constructor
      · rintro ⟨m, hm, same⟩
        exact .evicted hm same
      · intro departs
        cases departs with
        | evicted hm same => exact ⟨_, hm, same⟩
  | advance seconds =>
      rw [step, isRunning_advance h]
      refine and_congr_right fun _ => ?_
      constructor
      · intro stays departs
        cases departs with
        | finished hm same ended =>
            rw [stays _ hm same] at ended
            exact Bool.false_ne_true ended
      · intro stays m hm same
        rw [← Bool.not_eq_true]
        exact fun ended => stays (.finished hm same ended)
  | read c fallback => exact unchanged _ (chain_read s c fallback) (by rintro ⟨⟩)
  | rect v => exact unchanged _ (chain_rect s v) (by rintro ⟨⟩)
  | save a => exact unchanged _ (chain_save s a) (by rintro ⟨⟩)
  | clear =>
      constructor
      · intro stays
        simp [step, clear, isRunning, members] at stays
      · rintro ⟨_, stays⟩
        exact absurd .cleared stays

/-- Right after its insertion the scheduler has an animation as it was inserted, under
the next number. -/
theorem mem_members_add_new (h : Tidy s) (a : Animation α μ ι) (force : Bool) :
    ⟨s.nextId, a⟩ ∈ (s.add a force).value.members := by
  have perm := evictions_append_members_add_perm s a force
  refine (List.mem_append.mp (perm.symm.subset List.mem_cons_self)).resolve_left fun removed => ?_
  have before := (evictions_sublist a force s.chain).subset removed
  exact Nat.lt_irrefl _ (h.given _ before)

/-- The next number never gets smaller. -/
theorem nextId_mono_step (s : Scheduler α μ ι) (op : Operation α μ ι) :
    s.nextId ≤ (s.step op).value.nextId := by
  cases op <;> simp [step, clear]

/-- The scheduler has an inserted animation until the first operation with which it
goes, and never again. -/
theorem isRunning_run (before : List (Operation α μ ι)) (a : Animation α μ ι) (force : Bool)
    (after : List (Operation α μ ι)) :
    (run (before ++ .add a force :: after)).value.isRunning (run before).value.nextId = true ↔
      ∀ past op rest, after = past ++ op :: rest →
        ¬(run (before ++ .add a force :: past)).value.Departs (run before).value.nextId op := by
  suffices (run before).value.nextId < (run (before ++ .add a force :: after)).value.nextId ∧
      ((run (before ++ .add a force :: after)).value.isRunning (run before).value.nextId = true ↔
        ∀ past op rest, after = past ++ op :: rest →
          ¬(run (before ++ .add a force :: past)).value.Departs (run before).value.nextId op)
    from this.2
  induction after using List.reverseRecOn with
  | nil =>
      rw [run_concat, Logged.value_bind, step]
      have there := isRunning_iff.mpr ⟨_, mem_members_add_new (tidy_run before) a force, rfl⟩
      exact ⟨Nat.lt_succ_self _, by simp [there]⟩
  | append_singleton after op ih =>
      rcases ih with ⟨given, ih⟩
      rw [← List.cons_append, ← List.append_assoc, run_concat, Logged.value_bind]
      refine ⟨Nat.lt_of_lt_of_le given (nextId_mono_step _ op), ?_⟩
      rw [isRunning_step (tidy_run _) given op, ih]
      constructor
      · rintro ⟨stayed, stays⟩ past op' rest split
        rcases List.eq_nil_or_concat rest with rfl | ⟨rest, last, rfl⟩
        · rcases List.append_inj' split rfl with ⟨rfl, same⟩
          obtain rfl : op = op' := by simpa using same
          exact stays
        · rw [List.concat_eq_append, ← List.cons_append, ← List.append_assoc] at split
          exact stayed past op' rest (List.append_inj' split rfl).1
      · intro stays
        refine ⟨fun past op' rest split => ?_, stays after op [] rfl⟩
        exact stays past op' (rest ++ [op]) (by rw [split]; simp)

end Scheduler

end CameraMotion
