import CameraMotion.Proofs.Scan

/-!
# Forced insertion

What a forced insertion does to the groups that refuse the candidate.  A group
refuses because of an obstacle, a member that conflicts and may not be interrupted;
by the time the scan meets it, those before it that conflict have been removed.
They stay removed: a group that refuses is left alone exactly when nobody before its
obstacle conflicts.

Main results:

- Theorem `Group.exists_obstacle`: a group refuses because of its first obstacle.
- Theorems `Group.kept_of_obstacle` and `Group.evicted_of_obstacle`: only those
  before the obstacle go.
- Theorem `Scheduler.add_forced`: what a forced insertion does to every group, to
  the kept values and to those who are removed.
-/

namespace CameraMotion

variable {α μ ι : Type} [Motion α μ]

section Obstacles

variable {candidate : Animation α μ ι} {force : Bool} {g before after : Group α μ ι}
  {obstacle : Member α μ ι}

/-- Against force, only a member that conflicts and may not be interrupted stands. -/
theorem Member.refuses_forced {m : Member α μ ι} :
    m.refuses candidate true = true ↔
      m.fits candidate = false ∧ m.animation.interruptible = false := by
  simp [Member.refuses]

/-- By force a member yields when it fits or may be interrupted. -/
theorem Member.yields_forced {m : Member α μ ι} :
    m.refuses candidate true = false ↔
      m.fits candidate = true ∨ m.animation.interruptible = true := by
  simp [Member.refuses, or_iff_not_imp_left]

namespace Group

/-- A group refuses because of its first obstacle. -/
theorem exists_obstacle (h : g.refuses candidate force = true) :
    ∃ before obstacle after, g = before ++ obstacle :: after ∧
      (∀ m ∈ before, m.refuses candidate force = false) ∧
      obstacle.refuses candidate force = true := by
  have found : (g.find? (·.refuses candidate force)).isSome = true :=
    List.find?_isSome.mpr (List.any_eq_true.mp h)
  rcases Option.isSome_iff_exists.mp found with ⟨obstacle, found⟩
  rcases List.find?_eq_some_iff_append.mp found with ⟨stands, before, after, rfl, yields⟩
  exact ⟨before, obstacle, after, rfl, by simpa using yields, stands⟩

/-- The members in front of the first one that refuses are those who are asked and do not.
-/
theorem asked_of_obstacle (yields : ∀ m ∈ before, m.refuses candidate force = false)
    (stands : obstacle.refuses candidate force = true) :
    (before ++ obstacle :: after).asked candidate force = before := by
  rw [Group.asked, List.takeWhile_append_of_pos (by simpa using yields)]
  simp [stands]

/-- The obstacle and those behind it stay, and so does who fits before it. -/
theorem kept_of_obstacle (yields : ∀ m ∈ before, m.refuses candidate force = false)
    (stands : obstacle.refuses candidate force = true) :
    (before ++ obstacle :: after).kept candidate force =
      before.filter (·.fits candidate) ++ obstacle :: after := by
  rw [Group.kept, asked_of_obstacle yields stands,
    List.dropWhile_append_of_pos (by simpa using yields)]
  simp [stands]

/-- Those who go stand before the obstacle and conflict. -/
theorem evicted_of_obstacle (yields : ∀ m ∈ before, m.refuses candidate force = false)
    (stands : obstacle.refuses candidate force = true) :
    (before ++ obstacle :: after).evicted candidate force =
      before.filter (!·.fits candidate) := by
  rw [Group.evicted, asked_of_obstacle yields stands]

end Group

end Obstacles

namespace Scheduler

variable [Scalar α]

/-- A forced insertion goes through the groups that refuse up to the first one that
does not.  Of those that refuse, each one loses the members that conflict before its
first obstacle and nobody else, so it is left as it was exactly when all of these
fit.  The group that does not refuse loses everybody who conflicts and takes the
candidate; the groups after it stay as they are.  Who is lost, and nobody else, is
interrupted and has its values kept. -/
theorem add_forced (s : Scheduler α μ ι) (a : Animation α μ ι) :
    ∃ refused waiting : List (Group α μ ι),
      s.chain = refused ++ waiting ∧
      (∀ g ∈ refused, ∃ before obstacle after, g = before ++ obstacle :: after ∧
        (∀ m ∈ before, m.fits a = true ∨ m.animation.interruptible = true) ∧
        obstacle.fits a = false ∧ obstacle.animation.interruptible = false ∧
        g.kept a true = before.filter (·.fits a) ++ obstacle :: after ∧
        g.evicted a true = before.filter (!·.fits a) ∧
        (g.kept a true = g ↔ ∀ m ∈ before, m.fits a = true)) ∧
      (∀ g ∈ waiting.head?,
        (∀ m ∈ g, m.fits a = true ∨ m.animation.interruptible = true) ∧
        g.kept a true = g.filter (·.fits a) ∧ g.evicted a true = g.filter (!·.fits a)) ∧
      (s.add a true).value.chain =
        refused.map (·.kept a true) ++ join ⟨s.nextId, a⟩ true waiting ∧
      let lost := (refused ++ waiting.take 1).flatMap (·.evicted a true)
      (s.add a true).value.cache = keepAll s.cache lost ∧
      (s.add a true).moments =
        lost.flatMap (fun m => (m.animation.tell .interrupt).moments) ++
          (a.tell .start).moments := by
  refine ⟨s.chain.takeWhile (·.refuses a true), s.chain.dropWhile (·.refuses a true),
    List.takeWhile_append_dropWhile.symm, ?_, ?_, chain_add s a true, cache_add s a true,
    moments_add s a true⟩
  · intro g hg
    have refused : g.refuses a true = true := List.mem_takeWhile_imp hg
    rcases Group.exists_obstacle refused with ⟨before, obstacle, after, rfl, yields, stands⟩
    rcases Member.refuses_forced.mp stands with ⟨conflicts, firm⟩
    have kept : Group.kept a true (before ++ obstacle :: after) =
        before.filter (·.fits a) ++ obstacle :: after :=
      Group.kept_of_obstacle yields stands
    have whole : Group.kept a true (before ++ obstacle :: after) =
        before ++ obstacle :: after ↔ ∀ m ∈ before, m.fits a = true := by
      rw [kept, List.append_left_inj, List.filter_eq_self]
    exact ⟨before, obstacle, after, rfl, fun m hm => Member.yields_forced.mp (yields m hm),
      conflicts, firm, kept, Group.evicted_of_obstacle yields stands, whole⟩
  · intro g hg
    have takes : g.refuses a true = false := by
      have first := List.head?_dropWhile_not (·.refuses a true) s.chain
      rw [Option.mem_def.mp hg] at first
      exact first
    refine ⟨?_, Group.kept_of_not_refuses takes, Group.evicted_of_not_refuses takes⟩
    intro m hm
    rw [Group.refuses, List.any_eq_false] at takes
    have yields : m.refuses a true = false := by simpa using takes m hm
    exact Member.yields_forced.mp yields

/-- Two animations that share the camera, the second one not to be interrupted. -/
def firmSecond : List (Operation Float (Ramp Float) Nat) :=
  [.add (.ramp 0 [.position] true true 1) false, .add (.ramp 1 [.scale] true false 1) false]

/-- The group refuses an animation that wants the camera for itself, and loses its
first member all the same. -/
theorem add_forced_firmSecond :
    (run firmSecond).value.groups = [[0, 1]] ∧
      let forced := (run firmSecond).value.add (.ramp 2 [.angle] false true 1) true
      forced.value.groups = [[1], [2]] ∧
        forced.moments = [(0, .told .interrupt), (2, .told .start)] ∧
        forced.value.cache.channels = [⟨.mapPlane, .position⟩] := by
  decide

end Scheduler

end CameraMotion
