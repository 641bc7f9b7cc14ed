import CameraMotion.Proofs.Members
import CameraMotion.Proofs.Roster

/-!
# Histories

What each leaf notices in the course of a run.  An operation tells something to
those leaves only that stand on the roster of a member that it advances, removes or
inserts.  Hence the trace of a leaf always fits the roster of the animation that the
leaf was inserted with, for as long as the scheduler has it, and stays what it is
from then on.

Main results:

- Theorem `Scheduler.trace_step_of_not_mem`: who is on no roster is told nothing.
- Theorems `Scheduler.trace_advance_of_mem` and `Scheduler.trace_add_of_mem`: what the
  leaves of one member are told.
- Theorem `Scheduler.consistent_run`: after every run of animations whose leaves have
  numbers of their own, traces fit rosters.
-/

namespace CameraMotion

variable {α μ ι : Type} [Scalar α] [Motion α μ]

namespace Scheduler

/-! ## One operation -/

/-- Members have numbers of their own, and so have the leaves of every member. -/
structure Distinct (s : Scheduler α μ (ι × Nat)) : Prop where
  ids : (s.members.map (·.id)).Nodup
  rosters : ∀ m ∈ s.members, m.animation.roster.Distinct

variable {s : Scheduler α μ (ι × Nat)} {k : Nat}

/-- While time passes, a leaf of a running member is told what it is told in the turn
of that member. -/
theorem trace_advance_of_mem (distinct : s.Distinct) (seconds : α)
    {m : Member α μ (ι × Nat)} (hm : m ∈ s.head)
    (alone : ∀ n ∈ s.members, n.id ≠ m.id → k ∉ n.animation.roster.all) :
    trace k (s.advance seconds).moments = trace k (m.animation.turn seconds) := by
  rw [moments_advance]
  have ids : (s.head.map (·.id)).Nodup := by
    have all := distinct.ids
    rw [map_id_members] at all
    exact all.of_append_left
  refine trace_flatMap_of_mem ids hm fun n hn other => ?_
  have hn := mem_members_of_mem_head hn
  have follows := n.animation.tracks_turn seconds (distinct.rosters n hn)
  exact follows.trace_of_not_mem (alone n hn other)

/-- While time passes, who is on the roster of no running member is told nothing. -/
theorem trace_advance_of_not_mem (distinct : s.Distinct) (seconds : α)
    (absent : ∀ m ∈ s.head, k ∉ m.animation.roster.all) :
    trace k (s.advance seconds).moments = [] := by
  rw [moments_advance]
  refine trace_flatMap_eq_nil fun m hm => ?_
  have follows :=
    m.animation.tracks_turn seconds (distinct.rosters m (mem_members_of_mem_head hm))
  exact follows.trace_of_not_mem (absent m hm)

/-- In an insertion, a leaf of a removed member is told of the interruption if it
runs. -/
theorem trace_add_of_mem (distinct : s.Distinct) {a : Animation α μ (ι × Nat)} {force : Bool}
    (fresh : a.roster.Distinct) {m : Member α μ (ι × Nat)}
    (hm : m ∈ evictions a force s.chain)
    (alone : ∀ n ∈ s.members, n.id ≠ m.id → k ∉ n.animation.roster.all)
    (absent : k ∉ a.roster.all) :
    trace k (s.add a force).moments =
      if k ∈ m.animation.roster.running then [.told .interrupt] else [] := by
  have sub := evictions_sublist a force s.chain
  have start : trace k (a.tell .start).moments = [] :=
    a.trace_tell_of_not_mem .start fresh (by simp) absent
  rw [moments_add, trace_append, start, List.append_nil,
    trace_flatMap_of_mem (distinct.ids.sublist (sub.map _)) hm]
  · exact m.animation.trace_tell .interrupt (distinct.rosters m (sub.subset hm)) (by simp) k
  · intro n hn other
    have hn := sub.subset hn
    exact n.animation.trace_tell_of_not_mem .interrupt (distinct.rosters n hn) (by simp)
      (alone n hn other)

/-- In an insertion, who is on the roster of no removed member hears of the start of
the new one, if at all. -/
theorem trace_add_of_not_mem (distinct : s.Distinct) {a : Animation α μ (ι × Nat)}
    {force : Bool} (absent : ∀ m ∈ evictions a force s.chain, k ∉ m.animation.roster.all) :
    trace k (s.add a force).moments = trace k (a.tell .start).moments := by
  rw [moments_add, trace_append, trace_flatMap_eq_nil, List.nil_append]
  intro m hm
  have hm' := (evictions_sublist a force s.chain).subset hm
  exact m.animation.trace_tell_of_not_mem .interrupt (distinct.rosters m hm') (by simp)
    (absent m hm)

/-- Who is on no roster, and not among those who are inserted, is told nothing. -/
theorem trace_step_of_not_mem (distinct : s.Distinct) (op : Operation α μ (ι × Nat))
    (fresh : ∀ a ∈ op.added?, a.roster.Distinct)
    (absent : ∀ m ∈ s.members, k ∉ m.animation.roster.all)
    (absent' : ∀ a ∈ op.added?, k ∉ a.roster.all) :
    trace k (s.step op).moments = [] := by
  cases op with
  | add a force =>
      rw [step, trace_add_of_not_mem distinct]
      · exact a.trace_tell_of_not_mem .start (fresh a rfl) (by simp) (absent' a rfl)
      · exact fun m hm => absent m ((evictions_sublist a force s.chain).subset hm)
  | advance seconds =>
      exact trace_advance_of_not_mem distinct seconds fun m hm =>
        absent m (mem_members_of_mem_head hm)
  | read c fallback => simp [step]
  | rect v => simp [step]
  | save a => simp [step]
  | clear => simp [step]

end Scheduler

/-! ## Numbers -/

namespace Operation

variable {ops before after : List (Operation α μ (ι × Nat))}

omit [Scalar α] [Motion α μ]

/-- All leaves that a run inserts have numbers of their own. -/
def Numbered (ops : List (Operation α μ (ι × Nat))) : Prop :=
  ((added ops).flatMap (·.numbers)).Nodup

/-- The leaves of a shorter run have numbers of their own when those of the longer one have.
-/
theorem Numbered.of_append (h : Numbered (before ++ after)) : Numbered before := by
  rw [Numbered, added_append, List.flatMap_append] at h
  exact h.of_append_left

/-- Nobody is inserted twice. -/
theorem Numbered.apart (h : Numbered (before ++ after)) {a b : Animation α μ (ι × Nat)}
    (ha : a ∈ added before) (hb : b ∈ added after) {k : Nat} (hk : k ∈ a.numbers) :
    k ∉ b.numbers := by
  rw [Numbered, added_append, List.flatMap_append] at h
  intro hk'
  exact (List.nodup_append.mp h).2.2 k (List.mem_flatMap.mpr ⟨a, ha, hk⟩) k
    (List.mem_flatMap.mpr ⟨b, hb, hk'⟩) rfl

/-- The leaves of an inserted animation stand on its roster once. -/
theorem Numbered.distinct (h : Numbered ops) {a : Animation α μ (ι × Nat)}
    (ha : a ∈ added ops) : a.roster.Distinct :=
  a.numbers_perm.nodup_iff.mp ((List.nodup_flatMap.mp h).1 a ha)

/-- A leaf belongs to one of the inserted animations. -/
theorem Numbered.unique (h : Numbered ops) {i j : Nat} {a b : Animation α μ (ι × Nat)}
    (ha : (added ops)[i]? = some a) (hb : (added ops)[j]? = some b) {k : Nat}
    (hk : k ∈ a.numbers) (hk' : k ∈ b.numbers) : i = j := by
  rcases List.getElem?_eq_some_iff.mp ha with ⟨hi, rfl⟩
  rcases List.getElem?_eq_some_iff.mp hb with ⟨hj, rfl⟩
  have apart := List.pairwise_iff_getElem.mp (List.nodup_flatMap.mp h).2
  by_contra other
  rcases Nat.lt_or_gt_of_ne other with lt | lt
  · exact apart i j hi hj lt hk hk'
  · exact apart j i hj hi lt hk' hk

/-- What was inserted keeps its place among what is inserted. -/
theorem getElem?_added_append {n : Nat} {a : Animation α μ (ι × Nat)}
    (h : (added before)[n]? = some a) : (added (before ++ after))[n]? = some a := by
  rcases List.getElem?_eq_some_iff.mp h with ⟨hn, _⟩
  rw [added_append, List.getElem?_append_left hn, h]

/-- What is inserted last is among what was inserted. -/
theorem mem_added_concat (ops : List (Operation α μ ι)) (a : Animation α μ ι)
    (force : Bool) : a ∈ added (ops ++ [.add a force]) := by
  simp [added?]

end Operation

namespace Scheduler

variable {ops before after : List (Operation α μ (ι × Nat))} {k : Nat}

/-- The number of the next animation counts those that were inserted. -/
theorem nextId_run (ops : List (Operation α μ ι)) :
    (run ops).value.nextId = (Operation.added ops).length := by
  induction ops using List.reverseRecOn with
  | nil => rfl
  | append_singleton ops op ih =>
      rw [run_concat, Logged.value_bind, Operation.added_append, List.length_append, ← ih]
      cases op <;> simp [step, Operation.added?, clear]

/-! ## Runs -/

/-- What the leaf with a number notices in a run. -/
def heard (ops : List (Operation α μ (ι × Nat))) (k : Nat) : List Moment :=
  trace k (run ops).moments

/-- Nobody has heard anything at first. -/
@[simp]
theorem heard_nil : heard ([] : List (Operation α μ (ι × Nat))) k = [] :=
  rfl

/-- An operation more adds what is noticed of it. -/
theorem heard_concat (ops : List (Operation α μ (ι × Nat))) (op : Operation α μ (ι × Nat))
    (k : Nat) :
    heard (ops ++ [op]) k = heard ops k ++ trace k ((run ops).value.step op).moments := by
  rw [heard, run_concat, Logged.moments_bind, trace_append]
  rfl

/-- Where a leaf has got to in its life after an operation is where it gets from where it
was. -/
theorem after_heard_concat {op : Operation α μ (ι × Nat)} {p q : Phase}
    (h : Phase.waiting.after (heard ops k) = some p)
    (h' : p.after (trace k ((run ops).value.step op).moments) = some q) :
    Phase.waiting.after (heard (ops ++ [op]) k) = some q := by
  rw [heard_concat, Phase.after_append, h, Option.bind_some, h']

end Scheduler

open Scheduler

/-- The member is what has become of an animation that was inserted: the traces of its
leaves fit its roster. -/
structure Member.Stems (ops : List (Operation α μ (ι × Nat))) (m : Member α μ (ι × Nat))
    (a : Animation α μ (ι × Nat)) : Prop where
  inserted : (Operation.added ops)[m.id]? = some a
  count_le : ∀ k, m.animation.roster.all.count k ≤ a.numbers.count k
  /-- Everybody has come as far as the roster tells. -/
  alive : ∀ k ∈ a.numbers,
    Phase.waiting.after (heard ops k) = some (m.animation.roster.phase k)

namespace Member.Stems

variable {ops : List (Operation α μ (ι × Nat))} {m : Member α μ (ι × Nat)}
  {a : Animation α μ (ι × Nat)} {k : Nat}

/-- The leaves that a member still has are among those that it was inserted with. -/
theorem mem_numbers (h : m.Stems ops a) (hk : k ∈ m.animation.roster.all) :
    k ∈ a.numbers := by
  have stands := List.count_pos_iff.mpr hk
  have le := h.count_le k
  have inserted : 0 < a.numbers.count k := by omega
  exact List.count_pos_iff.mp inserted

/-- A member stems from its animation for as long as nobody in it notices anything. -/
theorem still (h : m.Stems ops a) (op : Operation α μ (ι × Nat))
    (quiet : ∀ k ∈ a.numbers, trace k ((run ops).value.step op).moments = []) :
    m.Stems (ops ++ [op]) a := by
  constructor
  · exact Operation.getElem?_added_append h.inserted
  · exact h.count_le
  · intro k hk
    apply after_heard_concat (h.alive k hk)
    rw [quiet k hk, Phase.after_nil]

end Member.Stems

namespace Scheduler

variable {ops before after : List (Operation α μ (ι × Nat))} {k : Nat}

/-- Every member stems from an animation that was inserted, every leaf has come to
some phase, and who was not inserted has not noticed anything. -/
structure Consistent (ops : List (Operation α μ (ι × Nat))) : Prop where
  ids : ((run ops).value.members.map (·.id)).Nodup
  stems : ∀ m ∈ (run ops).value.members, ∃ a, m.Stems ops a
  lived : ∀ k, ∃ p, Phase.waiting.after (heard ops k) = some p
  fresh : ∀ k, (∀ a ∈ Operation.added ops, k ∉ a.numbers) → heard ops k = []

namespace Consistent

/-- Nobody is on a roster twice. -/
theorem distinct (c : Consistent ops) (numbered : Operation.Numbered ops) :
    (run ops).value.Distinct := by
  constructor
  · exact c.ids
  · intro m hm
    rcases c.stems m hm with ⟨a, stems⟩
    have whole := a.numbers_perm.nodup_iff.mpr
      (numbered.distinct (List.mem_of_getElem? stems.inserted))
    rw [Roster.Distinct, List.nodup_iff_count_le_one]
    rw [List.nodup_iff_count_le_one] at whole
    intro k
    exact Nat.le_trans (stems.count_le k) (whole k)

/-- A leaf that was inserted under one number is on the roster of no member with
another one. -/
theorem alone (c : Consistent ops) (numbered : Operation.Numbered ops) {n : Nat}
    {a : Animation α μ (ι × Nat)} (ha : (Operation.added ops)[n]? = some a)
    (hk : k ∈ a.numbers) :
    ∀ m ∈ (run ops).value.members, m.id ≠ n → k ∉ m.animation.roster.all := by
  intro m hm other hk'
  rcases c.stems m hm with ⟨b, stems⟩
  exact other (numbered.unique stems.inserted ha (stems.mem_numbers hk') hk)

/-- A number that no inserted leaf has is that of no leaf in the scheduler. -/
theorem absent (c : Consistent ops) (fresh : ∀ a ∈ Operation.added ops, k ∉ a.numbers) :
    ∀ m ∈ (run ops).value.members, k ∉ m.animation.roster.all := by
  intro m hm hk
  rcases c.stems m hm with ⟨a, stems⟩
  exact fresh a (List.mem_of_getElem? stems.inserted) (stems.mem_numbers hk)

/-- Who has not been inserted after one more operation has still not noticed anything. -/
theorem fresh_concat (c : Consistent ops) {op : Operation α μ (ι × Nat)}
    (numbered : Operation.Numbered (ops ++ [op]))
    (fresh : ∀ a ∈ Operation.added (ops ++ [op]), k ∉ a.numbers) :
    heard (ops ++ [op]) k = [] := by
  rw [Operation.added_append, Operation.added_singleton] at fresh
  have before : ∀ a ∈ Operation.added ops, k ∉ a.numbers :=
    fun a ha => fresh a (List.mem_append_left _ ha)
  rw [heard_concat, c.fresh k before, List.nil_append]
  refine trace_step_of_not_mem (c.distinct numbered.of_append) op (fun a ha => ?_)
    (c.absent before) (fun a ha => ?_)
  · refine numbered.distinct ?_
    rw [Operation.added_append, Operation.added_singleton]
    exact List.mem_append_right _ (Option.mem_toList.mpr ha)
  · rw [← a.numbers_perm.mem_iff]
    exact fresh a (List.mem_append_right _ (Option.mem_toList.mpr ha))

/-- An operation that nobody notices, and that only drops members, changes nothing. -/
theorem quiet (c : Consistent ops) {op : Operation α μ (ι × Nat)}
    (numbered : Operation.Numbered (ops ++ [op]))
    (quiet : ((run ops).value.step op).moments = [])
    (sub : ((run ops).value.step op).value.members.Sublist (run ops).value.members) :
    Consistent (ops ++ [op]) := by
  have nothing : ∀ k, trace k ((run ops).value.step op).moments = [] := by simp [quiet]
  constructor
  · exact (tidy_run _).ids
  · intro m hm
    rw [run_concat, Logged.value_bind] at hm
    rcases c.stems m (sub.subset hm) with ⟨a, stems⟩
    exact ⟨a, stems.still op fun k _ => nothing k⟩
  · intro k
    rcases c.lived k with ⟨p, lived⟩
    refine ⟨p, after_heard_concat lived ?_⟩
    rw [nothing, Phase.after_nil]
  · intro k fresh
    exact c.fresh_concat numbered fresh

/-- What the leaves of a running member notice while time passes leads them on as its
roster tells. -/
theorem alive_advance (c : Consistent ops) (numbered : Operation.Numbered ops) (seconds : α)
    {m : Member α μ (ι × Nat)} (hm : m ∈ (run ops).value.head) {a : Animation α μ (ι × Nat)}
    (stems : m.Stems ops a) (hk : k ∈ a.numbers) :
    Phase.waiting.after (heard (ops ++ [.advance seconds]) k) =
      some ((m.animation.left seconds).phase k) := by
  have distinct := c.distinct numbered
  have follows := m.animation.tracks_turn seconds
    (distinct.rosters m (mem_members_of_mem_head hm))
  apply after_heard_concat (stems.alive k hk)
  rw [step, trace_advance_of_mem distinct seconds hm (c.alone numbered stems.inserted hk)]
  exact follows.lives k

/-- A member that stays in its turn stems from what it stemmed from. -/
theorem stems_advanced (c : Consistent ops) (numbered : Operation.Numbered ops) {seconds : α}
    {m : Member α μ (ι × Nat)} (hm : m ∈ (run ops).value.head) {a : Animation α μ (ι × Nat)}
    (stems : m.Stems ops a) (stays : (m.advanced seconds).finished = false) :
    (m.advanced seconds).Stems (ops ++ [.advance seconds]) a := by
  have left : m.animation.left seconds = (m.advanced seconds).animation.roster :=
    if_neg (Bool.not_eq_true _ ▸ stays)
  have follows := m.animation.tracks_turn seconds
    ((c.distinct numbered).rosters m (mem_members_of_mem_head hm))
  rw [left] at follows
  constructor
  · exact Operation.getElem?_added_append stems.inserted
  · intro k
    exact Nat.le_trans (follows.count_le k) (stems.count_le k)
  · intro k hk
    rw [c.alive_advance numbered seconds hm stems hk, left]

/-- Who waits behind the first group notices nothing while time passes. -/
theorem stems_waiting (c : Consistent ops) (numbered : Operation.Numbered ops) (seconds : α)
    {m : Member α μ (ι × Nat)} (hm : m ∈ (run ops).value.chain.tail.flatten)
    {a : Animation α μ (ι × Nat)} (stems : m.Stems ops a) :
    m.Stems (ops ++ [.advance seconds]) a := by
  refine stems.still _ fun k hk => ?_
  refine trace_advance_of_not_mem (c.distinct numbered) seconds fun n hn => ?_
  have other : n.id ≠ m.id := by
    have ids := c.ids
    rw [map_id_members] at ids
    exact (List.nodup_append.mp ids).2.2 n.id (List.mem_map_of_mem hn) m.id
      (List.mem_map_of_mem hm)
  exact c.alone numbered stems.inserted hk n (mem_members_of_mem_head hn) other

/-- Every leaf has a proper life up to the end of a step of time. -/
theorem lived_advance (c : Consistent ops) (numbered : Operation.Numbered ops) (seconds : α)
    (k : Nat) : ∃ p, Phase.waiting.after (heard (ops ++ [.advance seconds]) k) = some p := by
  by_cases runs : ∃ m ∈ (run ops).value.head, k ∈ m.animation.roster.all
  · rcases runs with ⟨m, hm, hk⟩
    rcases c.stems m (mem_members_of_mem_head hm) with ⟨a, stems⟩
    exact ⟨_, c.alive_advance numbered seconds hm stems (stems.mem_numbers hk)⟩
  · rcases c.lived k with ⟨p, lived⟩
    have silent := trace_advance_of_not_mem (c.distinct numbered) seconds
      fun m hm hk => runs ⟨m, hm, hk⟩
    refine ⟨p, after_heard_concat lived ?_⟩
    rw [step, silent, Phase.after_nil]

/-- Time keeps traces and rosters together. -/
theorem advance (c : Consistent ops) {seconds : α}
    (numbered : Operation.Numbered (ops ++ [.advance seconds])) :
    Consistent (ops ++ [.advance seconds]) := by
  have members : (run (ops ++ [.advance seconds])).value.members =
      Group.survivors seconds (run ops).value.head ++ (run ops).value.chain.tail.flatten := by
    rw [run_concat, Logged.value_bind, step, members_advance]
  constructor
  · exact (tidy_run _).ids
  · intro m hm
    rw [members] at hm
    rcases List.mem_append.mp hm with hm | hm
    · rcases Group.mem_survivors.mp hm with ⟨⟨n, hn, rfl⟩, stays⟩
      rcases c.stems n (mem_members_of_mem_head hn) with ⟨a, stems⟩
      exact ⟨a, c.stems_advanced numbered.of_append hn stems stays⟩
    · have hm' : m ∈ (run ops).value.members := by
        rw [members_eq]
        exact List.mem_append_right _ hm
      rcases c.stems m hm' with ⟨a, stems⟩
      exact ⟨a, c.stems_waiting numbered.of_append seconds hm stems⟩
  · exact c.lived_advance numbered.of_append seconds
  · intro k fresh
    exact c.fresh_concat numbered fresh

/-- The leaves of a member that is removed notice the interruption if they run. -/
theorem trace_add_evicted (c : Consistent ops) {a : Animation α μ (ι × Nat)} {force : Bool}
    (numbered : Operation.Numbered (ops ++ [.add a force])) {m : Member α μ (ι × Nat)}
    (hm : m ∈ evictions a force (run ops).value.chain) {b : Animation α μ (ι × Nat)}
    (stems : m.Stems ops b) (hk : k ∈ b.numbers) :
    trace k ((run ops).value.add a force).moments =
      if k ∈ m.animation.roster.running then [.told .interrupt] else [] := by
  refine trace_add_of_mem (c.distinct numbered.of_append)
    (numbered.distinct (Operation.mem_added_concat ops a force)) hm
    (c.alone numbered.of_append stems.inserted hk) ?_
  rw [← a.numbers_perm.mem_iff]
  exact numbered.apart (List.mem_of_getElem? stems.inserted) (by simp [Operation.added?]) hk

/-- The leaves of a member that is not removed notice nothing of an insertion. -/
theorem trace_add_kept (c : Consistent ops) {a : Animation α μ (ι × Nat)} {force : Bool}
    (numbered : Operation.Numbered (ops ++ [.add a force])) {n : Nat}
    (stays : ∀ m ∈ evictions a force (run ops).value.chain, m.id ≠ n)
    {b : Animation α μ (ι × Nat)} (hb : (Operation.added ops)[n]? = some b)
    (hk : k ∈ b.numbers) : trace k ((run ops).value.add a force).moments = [] := by
  have fresh := numbered.distinct (Operation.mem_added_concat ops a force)
  rw [trace_add_of_not_mem (c.distinct numbered.of_append)]
  · refine a.trace_tell_of_not_mem .start fresh (by simp) ?_
    rw [← a.numbers_perm.mem_iff]
    exact numbered.apart (List.mem_of_getElem? hb) (by simp [Operation.added?]) hk
  · intro m hm
    refine c.alone numbered.of_append hb hk m ?_ (stays m hm)
    exact (evictions_sublist a force _).subset hm

/-- The leaves of a new member have noticed its start if they run. -/
theorem alive_add_new (c : Consistent ops) {a : Animation α μ (ι × Nat)} {force : Bool}
    (numbered : Operation.Numbered (ops ++ [.add a force])) (hk : k ∈ a.numbers) :
    Phase.waiting.after (heard (ops ++ [.add a force]) k) = some (a.roster.phase k) := by
  have before : ∀ b ∈ Operation.added ops, k ∉ b.numbers := fun b hb hk' =>
    numbered.apart hb (by simp [Operation.added?]) hk' hk
  have follows := a.tracks_start
    (a.numbers_perm.nodup_iff.mpr (numbered.distinct (Operation.mem_added_concat ops a force)))
  apply after_heard_concat (p := .waiting) (by rw [c.fresh k before, Phase.after_nil])
  rw [step, trace_add_of_not_mem (c.distinct numbered.of_append)]
  · have waits : a.idle.phase k = .waiting := by simp [Roster.phase, Animation.idle, hk]
    rw [← waits]
    exact follows.lives k
  · intro m hm
    exact c.absent before m ((evictions_sublist a force _).subset hm)

/-- Every leaf has a proper life up to the end of an insertion. -/
theorem lived_add (c : Consistent ops) {a : Animation α μ (ι × Nat)} {force : Bool}
    (numbered : Operation.Numbered (ops ++ [.add a force])) (k : Nat) :
    ∃ p, Phase.waiting.after (heard (ops ++ [.add a force]) k) = some p := by
  by_cases leaves : ∃ m ∈ evictions a force (run ops).value.chain,
      k ∈ m.animation.roster.all
  · rcases leaves with ⟨m, hm, hk⟩
    rcases c.stems m ((evictions_sublist a force _).subset hm) with ⟨b, stems⟩
    have hk := stems.mem_numbers hk
    have told := c.trace_add_evicted numbered hm stems hk
    have before := stems.alive k hk
    by_cases runs : k ∈ m.animation.roster.running
    · refine ⟨.interrupted, after_heard_concat before ?_⟩
      rw [step, told, if_pos runs, Roster.phase, if_pos runs]
      rfl
    · refine ⟨m.animation.roster.phase k, after_heard_concat before ?_⟩
      rw [step, told, if_neg runs, Phase.after_nil]
  · by_cases new : k ∈ a.numbers
    · exact ⟨_, c.alive_add_new numbered new⟩
    · rcases c.lived k with ⟨p, lived⟩
      have fresh := numbered.distinct (Operation.mem_added_concat ops a force)
      have unstarted := a.trace_tell_of_not_mem .start fresh (by simp)
        (mt a.numbers_perm.mem_iff.mpr new)
      have silent := trace_add_of_not_mem (a := a) (c.distinct numbered.of_append)
        fun m hm hk => leaves ⟨m, hm, hk⟩
      refine ⟨p, after_heard_concat lived ?_⟩
      rw [step, silent, unstarted, Phase.after_nil]

/-- An insertion keeps traces and rosters together. -/
theorem add (c : Consistent ops) {a : Animation α μ (ι × Nat)} {force : Bool}
    (numbered : Operation.Numbered (ops ++ [.add a force])) :
    Consistent (ops ++ [.add a force]) := by
  have ids := (tidy_run ops).ids_add a force
  rw [List.map_append, List.nodup_append] at ids
  have members : (run (ops ++ [.add a force])).value.members =
      ((run ops).value.add a force).value.members := by
    rw [run_concat, Logged.value_bind, step]
  constructor
  · exact (tidy_run _).ids
  · intro m hm
    rw [members] at hm
    have stays : ∀ n ∈ evictions a force (run ops).value.chain, n.id ≠ m.id := by
      intro n hn
      exact ids.2.2 n.id (List.mem_map_of_mem hn) m.id (List.mem_map_of_mem hm)
    have perm := evictions_append_members_add_perm (run ops).value a force
    rcases List.mem_cons.mp (perm.subset (List.mem_append_right _ hm)) with rfl | hm
    · -- The member is the new one.
      refine ⟨a, ?_, fun k => ?_, fun k hk => c.alive_add_new numbered hk⟩
      · simp [nextId_run, Operation.added?]
      · exact Nat.le_of_eq (a.numbers_perm.count_eq k).symm
    · rcases c.stems m hm with ⟨b, stems⟩
      exact ⟨b, stems.still _ fun k hk => c.trace_add_kept numbered stays stems.inserted hk⟩
  · exact c.lived_add numbered
  · intro k fresh
    exact c.fresh_concat numbered fresh

end Consistent

/-- After every run of animations whose leaves have numbers of their own, traces fit
rosters. -/
theorem consistent_run (ops : List (Operation α μ (ι × Nat)))
    (numbered : Operation.Numbered ops) : Consistent ops := by
  induction ops using List.reverseRecOn with
  | nil =>
      constructor
      · simp [members, empty]
      · simp [members, empty]
      · exact fun k => ⟨.waiting, rfl⟩
      · exact fun k _ => rfl
  | append_singleton ops op ih =>
      have c := ih numbered.of_append
      have same : ∀ s : Scheduler α μ (ι × Nat), s.chain = (run ops).value.chain →
          s.members.Sublist (run ops).value.members := by
        intro s chain
        rw [members, members, chain]
      cases op with
      | add a force => exact c.add numbered
      | advance seconds => exact c.advance numbered
      | read ch fallback => exact c.quiet numbered (by simp [step]) (same _ (by simp [step]))
      | rect v => exact c.quiet numbered (by simp [step]) (same _ (by simp [step]))
      | save a => exact c.quiet numbered (by simp [step]) (same _ (by simp [step]))
      | clear => exact c.quiet numbered (by simp [step]) (by simp [step, clear, members])

end Scheduler

end CameraMotion
