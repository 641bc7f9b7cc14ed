import CameraMotion.Proofs.Members
import CameraMotion.Proofs.Compatible
import Mathlib.Logic.Equiv.Basic

/-!
# Insertions that commute

Without force an insertion removes nobody: the new animation joins the first group in which
it conflicts with nobody, or waits in a group of its own.  Two animations that can share a
group do not get in each other's way there.  Each of them finds the same group whether the
other one has been inserted before or not, unless both have to wait; then the second one
joins the first.  So the order in which they are inserted decides on their numbers and on
the order of the members of a group, and on nothing else.

Main results:

- Theorem `Animation.canShareGroup_comm`: it does not matter who is asked to share a group
  with whom.
- Theorem `Scheduler.value_add_gentle`: what an insertion without force does.
- Theorem `Scheduler.firstFit_comm`: two compatible members are admitted in any order.
- Theorem `Scheduler.run_add_comm`: after any run, two animations that can share a group are
  inserted in any order.
-/

namespace CameraMotion

variable {α μ ι : Type}

/-- The member under another number. -/
def Member.renumber (f : Nat → Nat) (m : Member α μ ι) : Member α μ ι :=
  ⟨f m.id, m.animation⟩

/-- The group with other numbers. -/
def Group.renumber (f : Nat → Nat) (g : Group α μ ι) : Group α μ ι :=
  g.map (·.renumber f)

variable [Motion α μ]

/-- It does not matter who is asked to share a group with whom. -/
theorem Animation.canShareGroup_comm (a b : Animation α μ ι) :
    (a.canShareGroup b).value = (b.canShareGroup a).value := by
  rw [Bool.eq_iff_iff, canShareGroup_iff, canShareGroup_iff]
  exact ⟨Compatible.symm, Compatible.symm⟩

namespace Group

/-! ## Groups without force -/

/-- The animation conflicts with nobody in the group. -/
def welcomes (candidate : Animation α μ ι) (g : Group α μ ι) : Bool :=
  g.all (·.fits candidate)

variable (candidate : Animation α μ ι) (g : Group α μ ι)

/-- A group with a member more welcomes an animation when it did so and the new member does.
-/
theorem welcomes_concat (m : Member α μ ι) :
    welcomes candidate (g ++ [m]) = (g.welcomes candidate && m.fits candidate) := by
  simp [welcomes]

/-- Numbers do not matter for whom a group welcomes. -/
theorem welcomes_renumber (f : Nat → Nat) :
    (g.renumber f).welcomes candidate = g.welcomes candidate := by
  rw [welcomes, renumber, List.all_map]
  rfl

omit [Motion α μ] in
/-- A group with a member more is renumbered member by member. -/
theorem renumber_concat (f : Nat → Nat) (m : Member α μ ι) :
    renumber f (g ++ [m]) = g.renumber f ++ [m.renumber f] := by
  simp [renumber]

omit [Motion α μ] in
variable {g} in
/-- Who keeps his number stays the same. -/
theorem renumber_eq_self {f : Nat → Nat} (keeps : ∀ m ∈ g, f m.id = m.id) :
    g.renumber f = g := by
  refine (List.map_congr_left fun m hm => ?_).trans (List.map_id g)
  rw [Member.renumber, keeps m hm, id]

/-- Without force a group refuses an animation with which somebody conflicts. -/
theorem refuses_gentle : g.refuses candidate false = !g.welcomes candidate := by
  simp [refuses, Member.refuses, welcomes, List.all_eq_not_any_not]

/-- Without force nobody is removed. -/
theorem evicted_gentle : g.evicted candidate false = [] := by
  refine List.eq_nil_iff_forall_not_mem.mpr fun m hm => ?_
  exact Bool.false_ne_true (forced_of_mem_evicted hm).1

/-- Without force nobody has to go. -/
theorem kept_gentle : g.kept candidate false = g := by
  have split := (g.evicted_append_kept_perm candidate false).length_eq
  rw [evicted_gentle, List.nil_append] at split
  exact (g.kept_sublist candidate false).eq_of_length split

end Group

namespace Scheduler

/-! ## First fit -/

/-- Let a member join the first group in which it conflicts with nobody, or wait in a group
of its own. -/
def firstFit (new : Member α μ ι) : List (Group α μ ι) → List (Group α μ ι)
  | [] => [[new]]
  | g :: gs => if g.welcomes new.animation then (g ++ [new]) :: gs else g :: firstFit new gs

/-- Who is admitted does not depend on the numbers. -/
theorem map_renumber_firstFit (f : Nat → Nat) (new : Member α μ ι) (chain : List (Group α μ ι)) :
    (firstFit new chain).map (·.renumber f) =
      firstFit (new.renumber f) (chain.map (·.renumber f)) := by
  induction chain with
  | nil => rfl
  | cons g gs ih =>
      have same : (g.renumber f).welcomes (new.renumber f).animation = g.welcomes new.animation :=
        g.welcomes_renumber new.animation f
      cases takes : g.welcomes new.animation with
      | false => simp [firstFit, same, takes, ih]
      | true => simp [firstFit, same, takes, Group.renumber_concat]

/-- Two compatible members are admitted in any order: the groups are the same but for the
order of their members. -/
theorem firstFit_comm {a b : Member α μ ι} (compatible : a.animation.Compatible b.animation)
    (chain : List (Group α μ ι)) :
    List.Forall₂ List.Perm (firstFit b (firstFit a chain)) (firstFit a (firstFit b chain)) := by
  have ab : a.fits b.animation = true := Member.fits_iff.mpr compatible
  have ba : b.fits a.animation = true := Member.fits_iff.mpr compatible.symm
  have swap (g : Group α μ ι) : (g ++ [a] ++ [b]).Perm (g ++ [b] ++ [a]) := by
    rw [List.append_assoc, List.append_assoc]
    exact (List.Perm.swap b a []).append_left g
  have same (gs : List (Group α μ ι)) : List.Forall₂ List.Perm gs gs :=
    List.forall₂_same.mpr fun g _ => .refl g
  induction chain with
  | nil =>
      -- Both have to wait, and the second one joins the first.
      have joined : Group.welcomes b.animation [a] = true := by simp [Group.welcomes, ab]
      have joined' : Group.welcomes a.animation [b] = true := by simp [Group.welcomes, ba]
      simp only [firstFit, joined, joined', if_true]
      exact .cons (swap []) .nil
  | cons g gs ih =>
      cases ha : g.welcomes a.animation <;> cases hb : g.welcomes b.animation <;>
        simp only [firstFit, ha, hb, ab, ba, Group.welcomes_concat, Bool.and_true, if_true,
          Bool.false_eq_true, if_false]
      · exact .cons (.refl g) ih
      · exact same _
      · exact same _
      · exact .cons (swap g) (same gs)

variable [Scalar α]

/-- Without force a new member goes to the first group that welcomes it, and nothing is kept
anew. -/
theorem value_place_gentle (new : Member α μ ι) (chain : List (Group α μ ι)) (cache : Cache α) :
    (place new false chain cache).value = (firstFit new chain, cache) := by
  induction chain generalizing cache with
  | nil => rfl
  | cons g gs ih =>
      have scanned : (scan new.animation false g cache).value =
          ⟨g.welcomes new.animation, g, cache⟩ := by
        rw [value_scan, Group.refuses_gentle, Bool.not_not, Group.kept_gentle,
          Group.evicted_gentle, keepAll_nil]
      cases takes : g.welcomes new.animation with
      | false => simp [place, scanned, takes, ih, firstFit]
      | true => simp [place, scanned, takes, firstFit]

/-- An insertion without force welcomes the animation, and does nothing else. -/
theorem value_add_gentle (s : Scheduler α μ ι) (a : Animation α μ ι) :
    (s.add a false).value = ⟨firstFit ⟨s.nextId, a⟩ s.chain, s.cache, s.nextId + 1⟩ := by
  simp [add, value_place_gentle]

/-! ## The order of two insertions -/

omit [Scalar α] [Motion α μ] in
/-- No number that has been given is exchanged with the next two. -/
theorem Tidy.renumber_swap {s : Scheduler α μ ι} (h : Tidy s) :
    s.chain.map (·.renumber (Equiv.swap s.nextId (s.nextId + 1))) = s.chain := by
  refine (List.map_congr_left fun g hg => ?_).trans (List.map_id s.chain)
  refine Group.renumber_eq_self fun m hm => ?_
  have given : m.id < s.nextId := h.given m (List.mem_flatten.mpr ⟨g, hg, hm⟩)
  exact Equiv.swap_apply_of_ne_of_ne given.ne (given.trans (Nat.lt_succ_self _)).ne

/-- After any run, two animations that can share a group are inserted without force in any
order.  In both orders the chain has the same number of groups, and each of them holds the
same animations.  The two exchange their numbers, and everybody else keeps his.  What is
kept stays as it was.  This rests on the question being the same in both directions, for all
animations. -/
theorem run_add_comm (ops : List (Operation α μ ι)) {x y : Animation α μ ι}
    (share : (x.canShareGroup y).value = true) :
    let s := (run ops).value
    let xy := ((s.add x false).value.add y false).value
    let yx := ((s.add y false).value.add x false).value
    (∀ a b : Animation α μ ι, (a.canShareGroup b).value = (b.canShareGroup a).value) ∧
      xy.chain.length = yx.chain.length ∧
      List.Forall₂ (fun g h => (g.renumber (Equiv.swap s.nextId (s.nextId + 1))).Perm h)
        xy.chain yx.chain ∧
      xy.cache = yx.cache ∧ xy.cache = s.cache ∧ xy.nextId = yx.nextId := by
  intro s xy yx
  let swap := Equiv.swap s.nextId (s.nextId + 1)
  have hxy : xy =
      ⟨firstFit ⟨s.nextId + 1, y⟩ (firstFit ⟨s.nextId, x⟩ s.chain), s.cache, s.nextId + 2⟩ := by
    simp only [xy, value_add_gentle]
  have hyx : yx =
      ⟨firstFit ⟨s.nextId + 1, x⟩ (firstFit ⟨s.nextId, y⟩ s.chain), s.cache, s.nextId + 2⟩ := by
    simp only [yx, value_add_gentle]
  have others : s.chain.map (·.renumber swap) = s.chain := (tidy_run ops).renumber_swap
  -- Under the other numbers, the same members are admitted in the other order.
  have exchanged : xy.chain.map (·.renumber swap) =
      firstFit ⟨s.nextId, y⟩ (firstFit ⟨s.nextId + 1, x⟩ s.chain) := by
    rw [hxy, map_renumber_firstFit, map_renumber_firstFit, others]
    simp only [Member.renumber, swap, Equiv.swap_apply_left, Equiv.swap_apply_right]
  have groups : List.Forall₂ (fun g h => (g.renumber swap).Perm h) xy.chain yx.chain := by
    rw [← List.forall₂_map_left_iff, exchanged, hyx]
    exact firstFit_comm (Animation.canShareGroup_iff.mp share) s.chain
  refine ⟨Animation.canShareGroup_comm, groups.length_eq, groups, ?_, ?_, ?_⟩
  · rw [hxy, hyx]
  · rw [hxy]
  · rw [hxy, hyx]

/-- Beside a camera that slides there is room for a zoom, and another slide has to wait.  It
waits as well when it comes first, under the other number. -/
theorem run_add_comm_zoomAndSlide :
    let zoom : Animation Float (Ramp Float) Nat := .ramp 1 [.scale] true true 1
    let slide : Animation Float (Ramp Float) Nat := .ramp 2 [.position] true true 1
    let s := (run [.add (.ramp 0 [.position] true true 1) false]).value
    let first := ((s.add zoom false).value.add slide false).value
    let second := ((s.add slide false).value.add zoom false).value
    (zoom.canShareGroup slide).value = true ∧
      first.groups = [[0, 1], [2]] ∧ second.groups = [[0, 2], [1]] ∧
      List.Forall₂ (fun g h => (g.renumber (Equiv.swap 1 2)).Perm h) first.chain second.chain := by
  intro zoom slide s first second
  have share : (zoom.canShareGroup slide).value = true := by decide
  rcases run_add_comm [.add (.ramp 0 [.position] true true 1) false] share with
    ⟨_, _, groups, _⟩
  exact ⟨share, by rfl, by rfl, groups⟩

end Scheduler

end CameraMotion
