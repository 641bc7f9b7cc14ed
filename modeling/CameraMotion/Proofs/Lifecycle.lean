import CameraMotion.Proofs.Numbering

/-!
# Lifecycles

The life of every leaf over a whole run: it is started once if at all, sees time pass,
and comes to one end if at all; it is passed over only while its stage has not been
reached; and when its animation leaves, it is told so if it was running.

Main results:

- Theorem `Scheduler.heard_append_of_gone`: once its animation has left, a leaf notices
  nothing.
- Theorem `Scheduler.heard_clear`: once everything has been dropped, no leaf that was
  inserted before notices anything.
- Theorem `Scheduler.waits_of_heard_nil`: a leaf that has noticed nothing waits in a
  stage that has not been reached.
- Theorems `Scheduler.finished_of_left` and `Scheduler.interrupted_of_left`: an animation
  that leaves has told its leaves so.
- Theorem `Scheduler.lifecycle_of_numbered`: all of this together, for leaves with
  numbers of their own.
- Theorem `Scheduler.run_lifecycle`: so it is in every run.
-/

namespace CameraMotion

variable {α μ ι : Type} [Scalar α] [Motion α μ]

namespace Scheduler

variable {ops before after : List (Operation α μ (ι × Nat))} {k n : Nat}
  {a : Animation α μ (ι × Nat)} {m : Member α μ (ι × Nat)}

/-- The scheduler does not have the animation with a number. -/
def Gone (s : Scheduler α μ (ι × Nat)) (n : Nat) : Prop :=
  ∀ m ∈ s.members, m.id ≠ n

/-! ## After the end -/

/-- An animation that has left does not come back. -/
theorem gone_concat (op : Operation α μ (ι × Nat)) (lt : n < (Operation.added ops).length)
    (gone : (run ops).value.Gone n) : (run (ops ++ [op])).value.Gone n := by
  intro m hm
  rw [run_concat, Logged.value_bind] at hm
  rcases origin_of_mem_step hm with hm | ⟨_, _, m', hm', rfl⟩ | ⟨a, _, _, rfl⟩
  · exact gone m hm
  · exact gone m' (mem_members_of_mem_head hm')
  · rw [nextId_run]
    exact Nat.ne_of_gt lt

/-- The leaves of an animation that has left notice nothing of the next operation. -/
theorem heard_concat_of_gone {op : Operation α μ (ι × Nat)}
    (numbered : Operation.Numbered (ops ++ [op])) (ha : (Operation.added ops)[n]? = some a)
    (gone : (run ops).value.Gone n) (hk : k ∈ a.numbers) :
    heard (ops ++ [op]) k = heard ops k := by
  have c := consistent_run ops numbered.of_append
  rw [heard_concat, trace_step_of_not_mem (c.distinct numbered.of_append), List.append_nil]
  · intro b hb
    refine numbered.distinct ?_
    rw [Operation.added_append, Operation.added_singleton]
    exact List.mem_append_right _ (Option.mem_toList.mpr hb)
  · exact fun m hm => c.alone numbered.of_append ha hk m hm (gone m hm)
  · intro b hb
    rw [← b.numbers_perm.mem_iff]
    refine numbered.apart (List.mem_of_getElem? ha) ?_ hk
    rw [Operation.added_singleton]
    exact Option.mem_toList.mpr hb

/-- Once its animation has left, a leaf notices nothing. -/
theorem heard_append_of_gone (numbered : Operation.Numbered (before ++ after))
    (ha : (Operation.added before)[n]? = some a) (gone : (run before).value.Gone n)
    (hk : k ∈ a.numbers) : heard (before ++ after) k = heard before k := by
  rcases List.getElem?_eq_some_iff.mp ha with ⟨lt, _⟩
  suffices (run (before ++ after)).value.Gone n ∧ heard (before ++ after) k = heard before k
    from this.2
  induction after using List.reverseRecOn with
  | nil => simpa using gone
  | append_singleton after op ih =>
      rw [← List.append_assoc] at numbered ⊢
      rcases ih numbered.of_append with ⟨away, same⟩
      have ha : (Operation.added (before ++ after))[n]? = some a :=
        Operation.getElem?_added_append ha
      rcases List.getElem?_eq_some_iff.mp ha with ⟨lt, _⟩
      exact ⟨gone_concat op lt away, (heard_concat_of_gone numbered ha away hk).trans same⟩

omit [Scalar α] [Motion α μ] in
/-- Nobody is left once everything has been dropped. -/
theorem members_clear (s : Scheduler α μ ι) : s.clear.members = [] :=
  rfl

/-- Dropping everything leaves no member. -/
theorem members_run_clear (before : List (Operation α μ ι)) :
    (run (before ++ [.clear])).value.members = [] := by
  rw [run_concat, Logged.value_bind]
  exact members_clear _

/-- Nobody is told that everything is dropped. -/
theorem heard_concat_clear (before : List (Operation α μ (ι × Nat))) (k : Nat) :
    heard (before ++ [.clear]) k = heard before k := by
  rw [heard_concat]
  exact List.append_nil _

/-- Once everything has been dropped, no leaf that was inserted before notices anything. -/
theorem heard_clear (numbered : Operation.Numbered (before ++ .clear :: after))
    (ha : (Operation.added before)[n]? = some a) (hk : k ∈ a.numbers) :
    heard (before ++ .clear :: after) k = heard before k := by
  have gone : (run (before ++ [.clear])).value.Gone n := by
    intro m hm
    rw [members_run_clear] at hm
    exact absurd hm List.not_mem_nil
  rw [List.append_cons] at numbered ⊢
  rw [heard_append_of_gone numbered (Operation.getElem?_added_append ha) gone hk,
    heard_concat_clear]

/-! ## Before the start -/

/-- What a leaf has heard it does not forget. -/
theorem heard_prefix (before after : List (Operation α μ (ι × Nat))) (k : Nat) :
    heard before k <+: heard (before ++ after) k := by
  rw [heard, heard, run_append, Logged.moments_bind, trace_append]
  exact List.prefix_append _ _

/-- A leaf that has noticed nothing waits in its animation for as long as the scheduler
has that. -/
theorem waits_of_heard_nil (numbered : Operation.Numbered (before ++ after))
    (ha : (Operation.added (before ++ after))[n]? = some a) (hk : k ∈ a.numbers)
    (nothing : heard (before ++ after) k = []) (hm : m ∈ (run before).value.members)
    (same : m.id = n) : k ∈ m.animation.roster.waiting := by
  rcases (consistent_run before numbered.of_append).stems m hm with ⟨b, stems⟩
  have hb : (Operation.added (before ++ after))[n]? = some b :=
    same ▸ Operation.getElem?_added_append stems.inserted
  obtain rfl : a = b := Option.some.inj (ha.symm.trans hb)
  have quiet : heard before k = [] := by
    have first := heard_prefix before after k
    rwa [nothing, List.prefix_nil] at first
  have alive := stems.alive k hk
  rw [quiet, Phase.after_nil, Option.some.injEq] at alive
  exact Roster.mem_waiting_of_phase alive.symm

omit [Scalar α] [Motion α μ] in
/-- Every animation that a run inserts has an insertion in the run, after as many others as
its number says. -/
theorem exists_add_of_getElem? (ha : (Operation.added ops)[n]? = some a) :
    ∃ before force after, ops = before ++ .add a force :: after ∧
      (Operation.added before).length = n := by
  induction ops using List.reverseRecOn with
  | nil => simp at ha
  | append_singleton ops op ih =>
      rw [Operation.added_append, Operation.added_singleton] at ha
      by_cases lt : n < (Operation.added ops).length
      · rw [List.getElem?_append_left lt] at ha
        rcases ih ha with ⟨before, force, after, rfl, length⟩
        exact ⟨before, force, after ++ [op], by simp, length⟩
      · rw [List.getElem?_append_right (Nat.le_of_not_lt lt)] at ha
        cases op with
        | add b force =>
            have last : n - (Operation.added ops).length = 0 := by
              rcases List.getElem?_eq_some_iff.mp ha with ⟨h, _⟩
              simpa [Operation.added?] using h
            obtain rfl : b = a := by simpa [last, Operation.added?] using ha
            exact ⟨ops, force, [], rfl, by omega⟩
        | _ => simp [Operation.added?] at ha

/-- Right after its insertion the scheduler has an animation as it was inserted. -/
theorem mem_members_add {force : Bool} :
    ⟨(Operation.added ops).length, a⟩ ∈ (run (ops ++ [.add a force])).value.members := by
  rw [run_concat, Logged.value_bind, step, ← nextId_run]
  exact mem_members_add_new (tidy_run ops) a force

/-! ## Leaving -/

/-- A member that leaves while time passes has finished all of its leaves by then, each
of them once. -/
theorem finished_of_left {seconds : α}
    (numbered : Operation.Numbered (ops ++ [.advance seconds])) (hm : m ∈ (run ops).value.members)
    (gone : (run (ops ++ [.advance seconds])).value.Gone m.id) (stems : m.Stems ops a)
    (hk : k ∈ a.numbers) :
    Phase.finished.Lived (heard (ops ++ [.advance seconds]) k) := by
  have c := consistent_run ops numbered.of_append
  rw [run_concat, Logged.value_bind, step, Gone, members_advance] at gone
  rw [members_eq] at hm
  rcases List.mem_append.mp hm with hm | hm
  · have ended : (m.animation.advanced seconds).finished = true := by
      by_contra stays
      rw [Bool.not_eq_true] at stays
      have survives : m.advanced seconds ∈ Group.survivors seconds (run ops).value.head :=
        Group.mem_survivors.mpr ⟨⟨m, hm, rfl⟩, stays⟩
      exact gone _ (List.mem_append_left _ survives) rfl
    rw [← Phase.after_eq_some_iff, c.alive_advance numbered.of_append seconds hm stems hk,
      Animation.left, if_pos ended]
    rfl
  · exact absurd rfl (gone m (List.mem_append_right _ hm))

/-- Who has finished before an operation and has finished after it notices nothing of
it. -/
theorem heard_concat_of_finished {op : Operation α μ (ι × Nat)}
    (before : Phase.finished.Lived (heard ops k))
    (after : Phase.finished.Lived (heard (ops ++ [op]) k)) :
    heard (ops ++ [op]) k = heard ops k := by
  rw [← Phase.after_eq_some_iff] at before after
  rw [heard_concat, Phase.after_append, before, Option.bind_some] at after
  rw [heard_concat, (Phase.after_finished_eq_some after).1, List.append_nil]

/-- A member that leaves because of an insertion has been removed by force. -/
theorem mem_evictions_of_left {force : Bool} (hm : m ∈ (run ops).value.members)
    (gone : (run (ops ++ [.add a force])).value.Gone m.id) :
    m ∈ evictions a force (run ops).value.chain := by
  have perm := evictions_append_members_add_perm (run ops).value a force
  rw [run_concat, Logged.value_bind, step] at gone
  rcases List.mem_append.mp (perm.symm.subset (List.mem_cons_of_mem _ hm)) with h | h
  · exact h
  · exact absurd rfl (gone m h)

/-- A member that leaves because of an insertion has told the interruption to those of
its leaves that were running, and nothing to the others. -/
theorem interrupted_of_left {b : Animation α μ (ι × Nat)} {force : Bool}
    (numbered : Operation.Numbered (ops ++ [.add b force]))
    (hm : m ∈ evictions b force (run ops).value.chain) (stems : m.Stems ops a)
    (hk : k ∈ a.numbers) :
    (Phase.running.Lived (heard ops k) →
      heard (ops ++ [.add b force]) k = heard ops k ++ [.told .interrupt]) ∧
    (¬Phase.running.Lived (heard ops k) → heard (ops ++ [.add b force]) k = heard ops k) := by
  have c := consistent_run ops numbered.of_append
  have running : Phase.running.Lived (heard ops k) ↔ k ∈ m.animation.roster.running := by
    rw [← Phase.after_eq_some_iff, stems.alive k hk, Option.some.injEq,
      Roster.phase_eq_running_iff]
  rw [running, heard_concat, step, c.trace_add_evicted numbered hm stems hk]
  constructor
  · intro runs
    rw [if_pos runs]
  · intro stands
    rw [if_neg stands, List.append_nil]

/-! ## Everything together -/

/-- The life of every leaf of a run. -/
structure Lifecycle (ops : List (Operation α μ (ι × Nat))) : Prop where
  /-- A leaf notices nothing; or its start and then time; or these and at last its
  finish; or these and at last an interruption. -/
  shape : ∀ k, ∃ p : Phase, p.Lived (heard ops k)
  /-- Once its animation has left, for whatever reason, a leaf notices nothing. -/
  silent : ∀ before after, ops = before ++ after → ∀ n a, (Operation.added before)[n]? = some a →
    (run before).value.Gone n → ∀ k ∈ a.numbers, heard ops k = heard before k
  /-- Dropping everything leaves nobody in the scheduler, and no leaf that was inserted
  before notices that or anything later. -/
  cleared : ∀ before after, ops = before ++ .clear :: after →
    (run (before ++ [.clear])).value.members = [] ∧
      ∀ (n : Nat) a, (Operation.added before)[n]? = some a →
        ∀ k ∈ a.numbers, heard ops k = heard before k
  /-- A leaf that notices nothing sits in a stage that is not reached as long as the
  scheduler has the animation. -/
  unreached : ∀ n a, (Operation.added ops)[n]? = some a → ∀ k ∈ a.numbers, heard ops k = [] →
    k ∈ a.roster.waiting ∧ ∀ before after, ops = before ++ after →
      ∀ m ∈ (run before).value.members, m.id = n → k ∈ m.animation.roster.waiting
  /-- An animation leaves because everything is dropped; or while time passes, and
  then each of its leaves has been told of its finish, now or before; or by force, and
  then those of its leaves have been interrupted, and no others, that were started and
  had not finished. -/
  leaving : ∀ before op after, ops = before ++ op :: after →
    ∀ m ∈ (run before).value.members, (run (before ++ [op])).value.Gone m.id →
      op = .clear ∨ ∃ a, (Operation.added before)[m.id]? = some a ∧
        ((∃ seconds, op = .advance seconds ∧ ∀ k ∈ a.numbers,
            Phase.finished.Lived (heard (before ++ [op]) k) ∧
            (Phase.finished.Lived (heard before k) →
              heard (before ++ [op]) k = heard before k)) ∨
          ∃ b, op = .add b true ∧ ∀ k ∈ a.numbers,
            (Phase.running.Lived (heard before k) →
              heard (before ++ [op]) k = heard before k ++ [.told .interrupt]) ∧
            (¬Phase.running.Lived (heard before k) →
              heard (before ++ [op]) k = heard before k))

/-- Leaves with numbers of their own have such lives in every run. -/
theorem lifecycle_of_numbered (ops : List (Operation α μ (ι × Nat)))
    (numbered : Operation.Numbered ops) : Lifecycle ops := by
  constructor
  · intro k
    rcases (consistent_run ops numbered).lived k with ⟨p, lived⟩
    exact ⟨p, Phase.after_eq_some_iff.mp lived⟩
  · rintro before after rfl n a ha gone k hk
    exact heard_append_of_gone numbered ha gone hk
  · rintro before after rfl
    exact ⟨members_run_clear before, fun n a ha k hk => heard_clear numbered ha hk⟩
  · intro n a ha k hk nothing
    have waits : ∀ before after, ops = before ++ after →
        ∀ m ∈ (run before).value.members, m.id = n → k ∈ m.animation.roster.waiting := by
      rintro before after rfl m hm same
      exact waits_of_heard_nil numbered ha hk nothing hm same
    constructor
    · -- Right after its insertion the member has the roster that it was inserted with.
      rcases exists_add_of_getElem? ha with ⟨before, force, after, rfl, rfl⟩
      have new : ⟨(Operation.added before).length, a⟩ ∈
          (run (before ++ [.add a force])).value.members := mem_members_add
      exact waits (before ++ [.add a force]) after (by simp) _ new rfl
    · exact waits
  · rintro before op after rfl m hm gone
    rw [List.append_cons] at numbered
    have numbered := numbered.of_append
    have c := consistent_run before numbered.of_append
    rcases c.stems m hm with ⟨a, stems⟩
    have stays : (run (before ++ [op])).value.chain = (run before).value.chain → False := by
      intro same
      rw [Gone, members, same] at gone
      exact gone m hm rfl
    rw [run_concat, Logged.value_bind] at stays
    cases op with
    | add b force =>
        have evicted := mem_evictions_of_left hm gone
        rcases forced_of_mem_evictions evicted with ⟨rfl, _⟩
        exact .inr ⟨a, stems.inserted, .inr ⟨b, rfl, fun k hk =>
          interrupted_of_left numbered evicted stems hk⟩⟩
    | advance seconds =>
        refine .inr ⟨a, stems.inserted, .inl ⟨seconds, rfl, fun k hk => ?_⟩⟩
        have finished := finished_of_left numbered hm gone stems hk
        exact ⟨finished, fun before => heard_concat_of_finished before finished⟩
    | read ch fallback => exact (stays (chain_read _ ch fallback)).elim
    | rect v => exact (stays (chain_rect _ v)).elim
    | save a => exact (stays (chain_save _ a)).elim
    | clear => exact .inl rfl

/-- Every run is one whose leaves have numbers of their own, with the numbers left out,
and there every leaf has such a life. -/
theorem run_lifecycle (ops : List (Operation α μ ι)) :
    let numbered := Operation.numberAll 0 ops
    Operation.Numbered numbered ∧
      numbered.map (Operation.rename Prod.fst) = ops ∧
      run ops = (run numbered).rename Prod.fst (rename Prod.fst) ∧
      Lifecycle numbered := by
  intro numbered
  have distinct : Operation.Numbered numbered := Operation.numbered_numberAll ops 0
  have same : numbered.map (Operation.rename Prod.fst) = ops :=
    Operation.map_rename_numberAll ops 0
  refine ⟨distinct, same, ?_, lifecycle_of_numbered numbered distinct⟩
  rw [← run_rename, same]

end Scheduler

end CameraMotion
