import CameraMotion.Proofs.Tick
import Mathlib.Data.List.TakeWhile

/-!
# Finding a place

Which members a scan removes and which it keeps, and where a new member ends up,
said without the scan: a group refuses when one of its members conflicts with the
candidate and may not be removed; the members that conflict and stand before the
first such one are removed; and the candidate joins the first group that does not
refuse.

Main results:

- Theorem `Scheduler.value_scan`: what a scan keeps and removes.
- Theorems `Scheduler.value_place` and `Scheduler.moments_place`: which groups are
  scanned, who is removed from them, and who is told.
-/

namespace CameraMotion

variable {α μ ι : Type} [Motion α μ]

namespace Member

/-- Whether the member can share its group with a candidate. -/
def fits (candidate : Animation α μ ι) (m : Member α μ ι) : Bool :=
  (m.animation.canShareGroup candidate).value

/-- Whether the member makes its group refuse a candidate: it conflicts with it and
is not to be removed. -/
def refuses (candidate : Animation α μ ι) (force : Bool) (m : Member α μ ι) : Bool :=
  !m.fits candidate && !(force && m.animation.interruptible)

end Member

namespace Group

/-- Whether some member makes the group refuse a candidate. -/
def refuses (candidate : Animation α μ ι) (force : Bool) (g : Group α μ ι) : Bool :=
  g.any (·.refuses candidate force)

/-- The members before the first one that refuses. -/
def asked (candidate : Animation α μ ι) (force : Bool) (g : Group α μ ι) : Group α μ ι :=
  g.takeWhile (!·.refuses candidate force)

/-- The members that a scan removes: those that conflict and stand before the first
one that refuses. -/
def evicted (candidate : Animation α μ ι) (force : Bool) (g : Group α μ ι) : Group α μ ι :=
  (g.asked candidate force).filter (!·.fits candidate)

/-- The members that a scan keeps. -/
def kept (candidate : Animation α μ ι) (force : Bool) (g : Group α μ ι) : Group α μ ι :=
  (g.asked candidate force).filter (·.fits candidate) ++
    g.dropWhile (!·.refuses candidate force)

/-- Those who are kept are members of the group, in the same order. -/
theorem kept_sublist (candidate : Animation α μ ι) (force : Bool) (g : Group α μ ι) :
    (g.kept candidate force).Sublist g := by
  calc g.kept candidate force
      _ |>.Sublist (g.asked candidate force ++ g.dropWhile (!·.refuses candidate force)) :=
        List.filter_sublist.append_right _
      _ |>.Sublist g := by rw [Group.asked, List.takeWhile_append_dropWhile]

/-- Those who are evicted are members of the group, in the same order. -/
theorem evicted_sublist (candidate : Animation α μ ι) (force : Bool) (g : Group α μ ι) :
    (g.evicted candidate force).Sublist g :=
  List.filter_sublist.trans (List.takeWhile_sublist _)

/-- Who is removed gives way to force, and may be interrupted. -/
theorem forced_of_mem_evicted {candidate : Animation α μ ι} {force : Bool}
    {g : Group α μ ι} {m : Member α μ ι} (h : m ∈ g.evicted candidate force) :
    force = true ∧ m.animation.interruptible = true := by
  rcases List.mem_filter.mp h with ⟨asked, conflicts⟩
  have yields := List.mem_takeWhile_imp asked
  rw [Bool.not_eq_true'] at conflicts
  simpa [Member.refuses, conflicts] using yields

/-- All members of a group are asked when it does not refuse. -/
theorem asked_of_not_refuses {candidate : Animation α μ ι} {force : Bool}
    {g : Group α μ ι} (h : g.refuses candidate force = false) :
    g.asked candidate force = g :=
  List.takeWhile_eq_self_iff.mpr (by simpa [Group.refuses] using h)

/-- A group that does not refuse keeps the members that fit. -/
theorem kept_of_not_refuses {candidate : Animation α μ ι} {force : Bool} {g : Group α μ ι}
    (h : g.refuses candidate force = false) :
    g.kept candidate force = g.filter (·.fits candidate) := by
  have nobody : g.dropWhile (!·.refuses candidate force) = [] :=
    List.dropWhile_eq_nil_iff.mpr (by simpa [Group.refuses] using h)
  rw [Group.kept, asked_of_not_refuses h, nobody, List.append_nil]

/-- A group that does not refuse gives up the members that do not fit. -/
theorem evicted_of_not_refuses {candidate : Animation α μ ι} {force : Bool}
    {g : Group α μ ι} (h : g.refuses candidate force = false) :
    g.evicted candidate force = g.filter (!·.fits candidate) := by
  rw [Group.evicted, asked_of_not_refuses h]

/-- Nobody is lost: a scan removes a member or keeps it. -/
theorem evicted_append_kept_perm (candidate : Animation α μ ι) (force : Bool)
    (g : Group α μ ι) : (g.evicted candidate force ++ g.kept candidate force).Perm g := by
  have split : ((g.asked candidate force).filter (!·.fits candidate) ++
      (g.asked candidate force).filter (·.fits candidate)).Perm (g.asked candidate force) := by
    refine List.perm_append_comm.trans ?_
    exact List.filter_append_perm (Member.fits candidate) _
  calc g.evicted candidate force ++ g.kept candidate force
      _ |>.Perm (g.asked candidate force ++ g.dropWhile (!·.refuses candidate force)) := by
        simpa only [Group.evicted, Group.kept, List.append_assoc] using split.append_right _
      _ |>.Perm g := by rw [Group.asked, List.takeWhile_append_dropWhile]

end Group

namespace Scheduler

/-- The groups that are scanned: those that refuse the candidate, and the first one
that does not. -/
def scanned (candidate : Animation α μ ι) (force : Bool) (chain : List (Group α μ ι)) :
    List (Group α μ ι) :=
  chain.takeWhile (·.refuses candidate force) ++
    (chain.dropWhile (·.refuses candidate force)).take 1

/-- The members that are removed from a chain, group after group. -/
def evictions (candidate : Animation α μ ι) (force : Bool) (chain : List (Group α μ ι)) :
    List (Member α μ ι) :=
  (scanned candidate force chain).flatMap (·.evicted candidate force)

/-- Who is removed from a chain was there, in the same order. -/
theorem evictions_sublist (candidate : Animation α μ ι) (force : Bool)
    (chain : List (Group α μ ι)) :
    (evictions candidate force chain).Sublist chain.flatten := by
  induction chain with
  | nil => simp [evictions, scanned]
  | cons g gs ih =>
      have here := g.evicted_sublist candidate force
      rw [List.flatten_cons]
      cases refused : g.refuses candidate force with
      | false => simpa [evictions, scanned, refused] using here.trans (List.sublist_append_left g _)
      | true => simpa [evictions, scanned, refused] using here.append ih

/-- Without force nobody is removed, and with it nobody who may not be interrupted. -/
theorem forced_of_mem_evictions {candidate : Animation α μ ι} {force : Bool}
    {chain : List (Group α μ ι)} {m : Member α μ ι}
    (h : m ∈ evictions candidate force chain) :
    force = true ∧ m.animation.interruptible = true := by
  rcases List.mem_flatMap.mp h with ⟨g, _, hm⟩
  exact Group.forced_of_mem_evicted hm

/-- Let a member join the first of some groups, or wait in a group of its own when
there is none. -/
def join (new : Member α μ ι) (force : Bool) : List (Group α μ ι) → List (Group α μ ι)
  | [] => [[new]]
  | g :: gs => (g.kept new.animation force ++ [new]) :: gs

variable [Scalar α]

/-- A scan finds out whether the group refuses, keeps those who stay and keeps the values of
those who go. -/
theorem value_scan (candidate : Animation α μ ι) (force : Bool) (g : Group α μ ι)
    (cache : Cache α) :
    (scan candidate force g cache).value =
      ⟨!g.refuses candidate force, g.kept candidate force,
        keepAll cache (g.evicted candidate force)⟩ := by
  induction g generalizing cache with
  | nil => rfl
  | cons m ms ih =>
      cases shares : (m.animation.canShareGroup candidate).value <;>
        cases removable : force && m.animation.interruptible <;>
          simp [scan, shares, removable, ih, Group.refuses, Group.kept, Group.evicted,
            Group.asked, Member.refuses, Member.fits, -Bool.not_and]

/-- The removed members of a group are told of the interruption, in order. -/
theorem moments_scan (candidate : Animation α μ ι) (force : Bool) (g : Group α μ ι)
    (cache : Cache α) :
    (scan candidate force g cache).moments =
      (g.evicted candidate force).flatMap fun m => (m.animation.tell .interrupt).moments := by
  induction g generalizing cache with
  | nil => rfl
  | cons m ms ih =>
      cases shares : (m.animation.canShareGroup candidate).value <;>
        cases removable : force && m.animation.interruptible <;>
          simp [scan, shares, removable, ih, Group.evicted, Group.asked, Member.refuses,
            Member.fits, -Bool.not_and]

/-- The groups that refuse lose the members that a scan removes, and the new member
joins the first group that does not refuse. -/
theorem value_place (new : Member α μ ι) (force : Bool) (chain : List (Group α μ ι))
    (cache : Cache α) :
    (place new force chain cache).value =
      ((chain.takeWhile (·.refuses new.animation force)).map (·.kept new.animation force) ++
          join new force (chain.dropWhile (·.refuses new.animation force)),
        keepAll cache (evictions new.animation force chain)) := by
  induction chain generalizing cache with
  | nil => rfl
  | cons g gs ih =>
      cases refused : g.refuses new.animation force <;>
        simp [place, value_scan, refused, ih, join, evictions, scanned]

/-- The removed members are told of the interruption, and then the new one is told
of its start. -/
theorem moments_place (new : Member α μ ι) (force : Bool) (chain : List (Group α μ ι))
    (cache : Cache α) :
    (place new force chain cache).moments =
      (evictions new.animation force chain).flatMap
          (fun m => (m.animation.tell .interrupt).moments) ++
        (new.animation.tell .start).moments := by
  induction chain generalizing cache with
  | nil => simp [place, evictions, scanned]
  | cons g gs ih =>
      cases refused : g.refuses new.animation force <;>
        simp [place, value_scan, moments_scan, refused, ih, evictions, scanned]

/-- Nobody is lost from a chain: who was there before is removed or stays, and the
new member comes in addition. -/
theorem evictions_append_place_perm (new : Member α μ ι) (force : Bool)
    (chain : List (Group α μ ι)) (cache : Cache α) :
    (evictions new.animation force chain ++
      (place new force chain cache).value.1.flatten).Perm (new :: chain.flatten) := by
  rw [value_place]
  induction chain with
  | nil => simp [evictions, scanned, join]
  | cons g gs ih =>
      have here : ∀ rest : Group α μ ι,
          (g.evicted new.animation force ++ (g.kept new.animation force ++ new :: rest)).Perm
            (new :: (g ++ rest)) := by
        intro rest
        rw [← List.append_assoc]
        exact ((Group.evicted_append_kept_perm new.animation force g).append_right _).trans
          List.perm_middle
      cases refused : g.refuses new.animation force with
      | false => simpa [evictions, scanned, join, refused] using here gs.flatten
      | true =>
          -- What the later groups lose and keep moves past what this group keeps.
          have later : ∀ lost stay : Group α μ ι, (lost ++ stay).Perm (new :: gs.flatten) →
              (g.evicted new.animation force ++
                (lost ++ (g.kept new.animation force ++ stay))).Perm
                  (new :: (g ++ gs.flatten)) := by
            intro lost stay h
            refine .trans (.append_left _ ?_) (here gs.flatten)
            refine .trans ?_ (h.append_left _)
            rw [← List.append_assoc, ← List.append_assoc]
            exact List.perm_append_comm.append_right stay
          simpa [evictions, scanned, refused] using later _ _ ih

/-! ## Insertion -/

/-- The chain after an insertion. -/
theorem chain_add (s : Scheduler α μ ι) (a : Animation α μ ι) (force : Bool) :
    (s.add a force).value.chain =
      (s.chain.takeWhile (·.refuses a force)).map (·.kept a force) ++
        join ⟨s.nextId, a⟩ force (s.chain.dropWhile (·.refuses a force)) := by
  simp [add, value_place]

/-- A group of the chain after an insertion is what is left of a group that refused,
or a group that the new member joined, or the new member alone, or a group that
nobody asked. -/
theorem mem_chain_add {s : Scheduler α μ ι} {a : Animation α μ ι} {force : Bool}
    {g' : Group α μ ι} (h : g' ∈ (s.add a force).value.chain) :
    (∃ g ∈ s.chain, g.refuses a force = true ∧ g' = g.kept a force) ∨
      (∃ g ∈ s.chain, g.refuses a force = false ∧
        g' = g.filter (·.fits a) ++ [⟨s.nextId, a⟩]) ∨
      g' = [⟨s.nextId, a⟩] ∨ g' ∈ s.chain := by
  rw [chain_add] at h
  rcases List.mem_append.mp h with h | h
  · rcases List.mem_map.mp h with ⟨g, hg, rfl⟩
    exact .inl ⟨g, (List.takeWhile_sublist _).subset hg, List.mem_takeWhile_imp hg, rfl⟩
  · have waits : ∀ g ∈ s.chain.dropWhile (·.refuses a force), g ∈ s.chain :=
      fun g hg => (List.dropWhile_sublist _).subset hg
    have takes := List.head?_dropWhile_not (·.refuses a force) s.chain
    cases rest : s.chain.dropWhile (·.refuses a force) with
    | nil =>
        rw [rest, join, List.mem_singleton] at h
        exact .inr (.inr (.inl h))
    | cons g gs =>
        simp only [rest, List.head?_cons] at h takes waits
        rw [join, Group.kept_of_not_refuses takes] at h
        rcases List.mem_cons.mp h with h | h
        · exact .inr (.inl ⟨g, waits g (by simp), takes, h⟩)
        · exact .inr (.inr (.inr (waits g' (List.mem_cons_of_mem _ h))))

/-- The kept values after an insertion: those of the removed members are added. -/
theorem cache_add (s : Scheduler α μ ι) (a : Animation α μ ι) (force : Bool) :
    (s.add a force).value.cache = keepAll s.cache (evictions a force s.chain) := by
  simp [add, value_place]

/-- An insertion gives one number. -/
@[simp]
theorem nextId_add (s : Scheduler α μ ι) (a : Animation α μ ι) (force : Bool) :
    (s.add a force).value.nextId = s.nextId + 1 :=
  rfl

/-- During an insertion the removed members are told of the interruption, and then
the new one is told of its start. -/
theorem moments_add (s : Scheduler α μ ι) (a : Animation α μ ι) (force : Bool) :
    (s.add a force).moments =
      (evictions a force s.chain).flatMap (fun m => (m.animation.tell .interrupt).moments) ++
        (a.tell .start).moments := by
  simp [add, moments_place]

/-- Nobody is lost in an insertion. -/
theorem evictions_append_members_add_perm (s : Scheduler α μ ι) (a : Animation α μ ι)
    (force : Bool) :
    (evictions a force s.chain ++ (s.add a force).value.members).Perm
      (⟨s.nextId, a⟩ :: s.members) :=
  evictions_append_place_perm ⟨s.nextId, a⟩ force s.chain s.cache

end Scheduler

end CameraMotion
