import CameraMotion.Proofs.Keeping
import CameraMotion.Proofs.Lasting
import Mathlib.Data.List.Pairwise

/-!
# Groups are exclusive

A group takes an animation only when it is compatible with every member that stays,
and without sequences two members that are compatible remain so.  Hence no two
members of a group ever get in each other's way, and a value that is read is the
value of the one member that drives the channel.

Main results:

- Theorem `Scheduler.orderly_step`: no operation puts two animations side by side
  that are not compatible.
- Theorem `Scheduler.run_exclusive`: after every run, the members of every group are
  pairwise compatible, at most one running member drives a channel, and the order of
  the running members is of no importance to what is read.
-/

namespace CameraMotion

variable {α μ ι : Type} [Scalar α] [Motion α μ]

namespace Group

omit [Scalar α] in
/-- Some members of an exclusive group make an exclusive group. -/
theorem Exclusive.sublist {g g' : Group α μ ι} (h : Group.Exclusive g) (sub : g'.Sublist g) :
    Group.Exclusive g' :=
  List.Pairwise.sublist sub h

omit [Scalar α] in
/-- Those who fit beside a new member stay exclusive with it. -/
theorem Exclusive.join {g : Group α μ ι} (h : Group.Exclusive g) (new : Member α μ ι) :
    Group.Exclusive (g.filter (·.fits new.animation) ++ [new]) := by
  unfold Exclusive
  rw [List.pairwise_append]
  refine ⟨h.sublist List.filter_sublist, List.pairwise_singleton _ _, ?_⟩
  intro m hm n hn
  rw [List.mem_singleton.mp hn]
  exact Member.fits_iff.mp (List.mem_filter.mp hm).2

omit [Scalar α] [Motion α μ] in
/-- Among compatible members, who drives a channel is found in any order. -/
theorem find?_perm {g g' : Group α μ ι} (perm : g'.Perm g) {p : Member α μ ι → Bool}
    (unique : g.Pairwise fun m n => ¬(p m = true ∧ p n = true)) : g'.find? p = g.find? p := by
  have few : (g.filter p).Pairwise fun _ _ => False := by
    refine (unique.filter p).imp_of_mem fun hm hn h => ?_
    exact h ⟨(List.mem_filter.mp hm).2, (List.mem_filter.mp hn).2⟩
  have same : (g'.filter p).Perm (g.filter p) := perm.filter p
  rw [← List.head?_filter, ← List.head?_filter]
  match h : g.filter p with
  | [] =>
      rw [h] at same
      rw [same.eq_nil]
  | [m] =>
      rw [h] at same
      rw [List.perm_singleton.mp same]
  | m :: n :: ms =>
      rw [h, List.pairwise_cons] at few
      exact (few.1 n (by simp)).elim

end Group

namespace Scheduler

/-! ## The invariant -/

/-- Every animation is free of sequences and has declarations that last, and the
members of every group are compatible. -/
structure Orderly (s : Scheduler α μ ι) : Prop where
  lasting : ∀ g ∈ s.chain, ∀ m ∈ g, m.animation.Lasting ∧ m.animation.SequenceFree
  exclusive : ∀ g ∈ s.chain, Group.Exclusive g

/-- There is nothing out of order at first. -/
theorem orderly_empty : Orderly (empty : Scheduler α μ ι) :=
  ⟨by simp [empty], by simp [empty]⟩

/-- An inserted animation joins only those with whom it is compatible. -/
theorem orderly_add {s : Scheduler α μ ι} (h : Orderly s) {a : Animation α μ ι}
    (lasting : a.Lasting) (free : a.SequenceFree) (force : Bool) :
    Orderly (s.add a force).value := by
  constructor
  · intro g' hg' m hm
    rcases mem_chain_add hg' with ⟨g, hg, _, rfl⟩ | ⟨g, hg, _, rfl⟩ | rfl | hg
    · exact h.lasting g hg m ((Group.kept_sublist a force g).subset hm)
    · rcases List.mem_append.mp hm with hm | hm
      · exact h.lasting g hg m (List.mem_of_mem_filter hm)
      · rw [List.mem_singleton.mp hm]
        exact ⟨lasting, free⟩
    · rw [List.mem_singleton.mp hm]
      exact ⟨lasting, free⟩
    · exact h.lasting g' hg m hm
  · intro g' hg'
    rcases mem_chain_add hg' with ⟨g, hg, _, rfl⟩ | ⟨g, hg, _, rfl⟩ | rfl | hg
    · exact (h.exclusive g hg).sublist (Group.kept_sublist a force g)
    · exact (h.exclusive g hg).join ⟨s.nextId, a⟩
    · exact List.pairwise_singleton _ _
    · exact h.exclusive g' hg

/-- Those who remain in the running group stay compatible. -/
theorem orderly_advance {s : Scheduler α μ ι} (h : Orderly s) (seconds : α) :
    Orderly (s.advance seconds).value := by
  constructor
  · intro g hg m hm
    rcases mem_chain_advance hg with ⟨hhead, rfl⟩ | hg
    · rcases Group.mem_survivors.mp hm with ⟨⟨m₀, hm₀, rfl⟩, _⟩
      rcases h.lasting _ hhead m₀ hm₀ with ⟨lasting, free⟩
      exact ⟨lasting.advanced seconds, free.advanced seconds⟩
    · exact h.lasting g hg m hm
  · intro g hg
    rcases mem_chain_advance hg with ⟨hhead, rfl⟩ | hg
    · apply List.Pairwise.filter
      rw [List.pairwise_map]
      refine (h.exclusive _ hhead).imp_of_mem fun hm hn compatible => ?_
      rcases h.lasting _ hhead _ hm with ⟨hml, hmf⟩
      rcases h.lasting _ hhead _ hn with ⟨hnl, hnf⟩
      exact compatible.advanced hml hmf hnl hnf seconds
    · exact h.exclusive g hg

/-- No operation puts two animations side by side that are not compatible. -/
theorem orderly_step {s : Scheduler α μ ι} (h : Orderly s) (op : Operation α μ ι)
    (built : ∀ a ∈ op.added?, a.Built Leaf.Steady ∧ a.SequenceFree) :
    Orderly (s.step op).value := by
  have unchanged : ∀ s' : Scheduler α μ ι, s'.chain = s.chain → Orderly s' :=
    fun s' same => ⟨same ▸ h.lasting, same ▸ h.exclusive⟩
  cases op with
  | add a force =>
      rcases built a rfl with ⟨built, free⟩
      exact orderly_add h built.lasting free force
  | advance seconds => exact orderly_advance h seconds
  | read c fallback => exact unchanged _ (chain_read s c fallback)
  | rect v => exact unchanged _ (chain_rect s v)
  | save a => exact unchanged _ (chain_save s a)
  | clear => exact ⟨by simp [step, clear], by simp [step, clear]⟩

/-- After every run, groups are exclusive. -/
theorem orderly_run (ops : List (Operation α μ ι))
    (built : ∀ a ∈ Operation.added ops, a.Built Leaf.Steady ∧ a.SequenceFree) :
    Orderly (run ops).value := by
  refine run_invariant orderly_empty (fun s op allowed h => orderly_step h op allowed) ops ?_
  intro op hop a ha
  exact built a (List.mem_filterMap.mpr ⟨op, hop, ha⟩)

/-! ## Reading -/

/-- The running members keep to what they declare, and have no sequence in them. -/
theorem Orderly.lasting_of_mem_head {s : Scheduler α μ ι} (h : Orderly s) {m : Member α μ ι}
    (hm : m ∈ s.head) : m.animation.Lasting ∧ m.animation.SequenceFree := by
  rcases s with ⟨_ | ⟨g, gs⟩, cache, nextId⟩
  · exact absurd hm List.not_mem_nil
  · exact h.lasting g List.mem_cons_self m hm

/-- The running group is exclusive. -/
theorem Orderly.exclusive_head {s : Scheduler α μ ι} (h : Orderly s) :
    Group.Exclusive s.head := by
  rcases s with ⟨_ | ⟨g, gs⟩, cache, nextId⟩
  · exact List.Pairwise.nil
  · exact h.exclusive g List.mem_cons_self

/-- In an orderly scheduler, a channel is declared by one running member at most. -/
theorem Orderly.eq_of_declares {s : Scheduler α μ ι} (h : Orderly s) {m n : Member α μ ι}
    (hm : m ∈ s.head) (hn : n ∈ s.head) {c : Channel}
    (declaresM : m.animation.declarations.declares c = true)
    (declaresN : n.animation.declarations.declares c = true) : m = n := by
  have : Std.Symm fun m n : Member α μ ι => m.animation.Compatible n.animation :=
    ⟨fun _ _ compatible => compatible.symm⟩
  by_contra other
  exact (List.Pairwise.forall h.exclusive_head hm hn other).apart c ⟨declaresM, declaresN⟩

/-- In an orderly scheduler, running members declare what they drive. -/
theorem Orderly.declares_of_exposes {s : Scheduler α μ ι} (h : Orderly s) {m : Member α μ ι}
    (hm : m ∈ s.head) {c : Channel} (drives : m.animation.exposes c = true) :
    m.animation.declarations.declares c = true := by
  rcases h.lasting_of_mem_head hm with ⟨lasting, free⟩
  exact lasting.declares_of_exposes free drives

/-- In an orderly scheduler, nobody drives a channel that a running member drives. -/
theorem Orderly.eq_of_exposes {s : Scheduler α μ ι} (h : Orderly s) {m n : Member α μ ι}
    (hm : m ∈ s.head) (hn : n ∈ s.head) {c : Channel} (drives : m.animation.exposes c = true)
    (drives' : n.animation.exposes c = true) : n = m :=
  h.eq_of_declares hn hm (h.declares_of_exposes hn drives') (h.declares_of_exposes hm drives)

/-- In an orderly scheduler, no two running members drive the same channel. -/
theorem Orderly.exposes_unique {s : Scheduler α μ ι} (h : Orderly s) (c : Channel) :
    s.head.Pairwise fun m n =>
      ¬(m.animation.exposes c = true ∧ n.animation.exposes c = true) := by
  refine h.exclusive_head.imp_of_mem fun hm hn compatible driven => ?_
  exact compatible.apart c
    ⟨h.declares_of_exposes hm driven.1, h.declares_of_exposes hn driven.2⟩

/-- After every run of animations without sequences whose leaves declare the same
for as long as they live, the members of every group can share it, whoever is asked;
at most one running member drives a channel; and the order of the running members
is of no importance to what is read. -/
theorem run_exclusive (ops : List (Operation α μ ι))
    (built : ∀ a ∈ Operation.added ops, a.Built Leaf.Steady ∧ a.SequenceFree) :
    let s := (run ops).value
    (∀ g ∈ s.chain, g.Pairwise fun m n =>
      (m.animation.canShareGroup n.animation).value = true ∧
      (n.animation.canShareGroup m.animation).value = true ∧
      ∀ o, m.animation.touches o = true → n.animation.touches o = true →
        m.animation.mixable = true ∧ n.animation.mixable = true ∧
        (m.animation.properties o).value.disjoint (n.animation.properties o).value = true) ∧
    (∀ c, s.head.Pairwise fun m n =>
      ¬(m.animation.exposes c = true ∧ n.animation.exposes c = true)) ∧
    (∀ g', g'.Perm s.head → ∀ c fallback,
      (read { s with chain := g' :: s.chain.tail } c fallback).value.1 =
        (s.read c fallback).value.1) := by
  intro s
  have orderly : Orderly s := orderly_run ops built
  refine ⟨?_, orderly.exposes_unique, ?_⟩
  · intro g hg
    refine (orderly.exclusive g hg).imp fun {m n} compatible => ?_
    refine ⟨Animation.canShareGroup_iff.mpr compatible,
      Animation.canShareGroup_iff.mpr compatible.symm, fun o hm hn => ?_⟩
    simpa using Animation.compatible_iff_disjoint.mp compatible o hm hn
  · intro g' perm c fallback
    have same : g'.find? (·.animation.exposes c) = s.head.find? (·.animation.exposes c) :=
      Group.find?_perm perm (orderly.exposes_unique c)
    rw [value_read, value_read]
    simp only [head, List.headD_cons] at same ⊢
    rw [same]

/-- Two animations share the camera, one of them a parallel; a third one wants the
scale for itself and waits.  Then one member of the parallel comes to its end. -/
def sharedRun : List (Operation Float (Ramp Float) Nat) :=
  [.add (.together [.ramp 0 [.position] true true 1, .ramp 1 [.angle] true true 3]) false,
    .add (.ramp 2 [.scale] true true 2) false,
    .add (.ramp 3 [.scale] false true 1) false,
    .advance 1]

/-- The run ends with two groups, both exclusive. -/
theorem run_exclusive_sharedRun :
    (run sharedRun).value.groups = [[0, 1], [2]] ∧
      ∀ g ∈ (run sharedRun).value.chain, g.Pairwise fun m n =>
        (m.animation.canShareGroup n.animation).value = true ∧
          (n.animation.canShareGroup m.animation).value = true := by
  have built : ∀ a ∈ Operation.added sharedRun, a.Built Leaf.Steady ∧ a.SequenceFree := by
    have ramp : ∀ n ps x y seconds, (Animation.ramp n ps x y seconds).Built Leaf.Steady ∧
        (Animation.ramp n ps x y seconds).SequenceFree :=
      fun n ps x y seconds => ⟨.leaf (Leaf.steady_ramp _), .leaf _ _⟩
    intro a ha
    simp only [Operation.added, sharedRun, List.filterMap_cons, List.filterMap_nil,
      Operation.added?, List.mem_cons, List.not_mem_nil, or_false] at ha
    rcases ha with rfl | rfl | rfl
    · constructor
      · exact .together (by simp [ramp])
      · exact .together (by simp [ramp])
    all_goals exact ramp _ _ _ _ _
  refine ⟨by decide, ?_⟩
  intro g hg
  rcases run_exclusive sharedRun built with ⟨exclusive, _, _⟩
  exact (exclusive g hg).imp fun h => ⟨h.1, h.2.1⟩

end Scheduler

end CameraMotion
