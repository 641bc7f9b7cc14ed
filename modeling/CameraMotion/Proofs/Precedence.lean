import CameraMotion.Proofs.Placement
import CameraMotion.Proofs.Turns

/-!
# Precedence

Of two animations in different groups of the chain, the one in the earlier group precedes
the other one.  No operation changes that as long as both are there: groups lose members
and gain new ones, but they stay in order, and a new group comes last.  Only members of
the running group are advanced, so nobody is advanced before everybody who ever preceded
him is gone.

Main results:

- Theorem `Scheduler.Precedes.step`: two animations keep their precedence for as long as
  both are there.
- Theorem `Scheduler.Precedes.gone_of_mem_head`: who preceded a member of the running
  group is gone.
- Theorem `Scheduler.run_turn_by_turn`: how time passes after any run, and when an
  animation can have a turn.
-/

namespace CameraMotion.Scheduler

variable {α μ ι : Type}

/-- The group of one animation comes before that of another one. -/
def Precedes (s : Scheduler α μ ι) (x y : Nat) : Prop :=
  ∃ earlier later, s.chain = earlier ++ later ∧
    x ∈ earlier.flatten.map (·.id) ∧ y ∈ later.flatten.map (·.id)

/-- To put a member into a chain is to put it into one of two parts of it. -/
theorem seat_append (new : Member α μ ι) (i : Nat) (gs hs : List (Group α μ ι)) :
    seat new i (gs ++ hs) =
      if i < gs.length then seat new i gs ++ hs else gs ++ seat new (i - gs.length) hs := by
  induction gs generalizing i with
  | nil => simp
  | cons g gs ih =>
      cases i with
      | zero => simp [seat]
      | succ i =>
          rw [List.cons_append, seat, ih]
          by_cases before : i < gs.length <;> simp [seat, before]

/-- Whoever sits in a part of the chain is there. -/
theorem isRunning_of_mem_part {s : Scheduler α μ ι} {part : List (Group α μ ι)} {x : Nat}
    (sub : part ⊆ s.chain) (hx : x ∈ part.flatten.map (·.id)) : s.isRunning x = true := by
  rw [isRunning_iff_mem_ids]
  rcases List.mem_map.mp hx with ⟨m, hm, same⟩
  rcases List.mem_flatten.mp hm with ⟨g, hg, hm⟩
  exact List.mem_map.mpr ⟨m, List.mem_flatten.mpr ⟨g, sub hg, hm⟩, same⟩

namespace Precedes

variable {s : Scheduler α μ ι} {x y : Nat}

/-- Who precedes somebody is there. -/
theorem isRunning_left (p : s.Precedes x y) : s.isRunning x = true := by
  rcases p with ⟨earlier, later, split, hx, _⟩
  exact isRunning_of_mem_part (by simp [split]) hx

/-- Who is preceded by somebody is there. -/
theorem isRunning_right (p : s.Precedes x y) : s.isRunning y = true := by
  rcases p with ⟨earlier, later, split, _, hy⟩
  exact isRunning_of_mem_part (by simp [split]) hy

/-- Nobody in the running group is preceded by anybody. -/
theorem not_mem_head (h : s.Tidy) (p : s.Precedes x y) : y ∉ s.head.map (·.id) := by
  intro here
  rcases p with ⟨_ | ⟨g, gs⟩, later, split, hx, hy⟩
  · simp at hx
  · -- The running group is part of the earlier groups.
    have ids := h.ids
    rw [members, split, List.flatten_append, List.map_append] at ids
    rw [head, split, List.cons_append, List.headD_cons] at here
    have earlier : y ∈ (g :: gs).flatten.map (·.id) := by
      rw [List.flatten_cons, List.map_append]
      exact List.mem_append_left _ here
    exact (List.nodup_append.mp ids).2.2 y earlier y hy rfl

variable [Scalar α] [Motion α μ]

omit [Scalar α] [Motion α μ] in
/-- Who is still there later stays in the groups when those who are not are taken out. -/
private theorem mem_map_filter {gs : List (Group α μ ι)} {later : Scheduler α μ ι}
    (hx : x ∈ gs.flatten.map (·.id)) (stays : later.isRunning x = true) :
    x ∈ (gs.map (·.filter (later.isRunning ·.id))).flatten.map (·.id) := by
  rcases List.mem_map.mp hx with ⟨m, hm, rfl⟩
  rcases List.mem_flatten.mp hm with ⟨g, hg, hm⟩
  refine List.mem_map_of_mem (List.mem_flatten.mpr ⟨_, List.mem_map_of_mem hg, ?_⟩)
  exact List.mem_filter.mpr ⟨hm, stays⟩

/-- A new member is put into the earlier groups or into the later ones, which are what is
left of those before. -/
theorem add (h : s.Tidy) (p : s.Precedes x y) (a : Animation α μ ι) (force : Bool)
    (hx : (s.add a force).value.isRunning x = true)
    (hy : (s.add a force).value.isRunning y = true) : (s.add a force).value.Precedes x y := by
  rcases p with ⟨earlier, later, split, before, after⟩
  have before := mem_map_filter before hx
  have after := mem_map_filter after hy
  have seated : (s.add a force).value.chain =
      seat ⟨s.nextId, a⟩ (s.chain.takeWhile (·.refuses a force)).length (s.room a force) := by
    rw [add_eq]
    rfl
  rw [← map_stay_eq h, split, List.map_append, seat_append] at seated
  have seats : ∀ (i : Nat) {gs : List (Group α μ ι)} {z : Nat}, z ∈ gs.flatten.map (·.id) →
      z ∈ (seat ⟨s.nextId, a⟩ i gs).flatten.map (·.id) := by
    intro i gs z hz
    rcases List.mem_map.mp hz with ⟨m, hm, rfl⟩
    exact List.mem_map_of_mem (mem_flatten_seat.mpr (.inl hm))
  split at seated
  · exact ⟨_, _, seated, seats _ before, after⟩
  · exact ⟨_, _, seated, before, seats _ after⟩

/-- Time takes members from the earliest group only. -/
theorem advance (h : s.Tidy) (p : s.Precedes x y) (seconds : α)
    (hx : (s.advance seconds).value.isRunning x = true) :
    (s.advance seconds).value.Precedes x y := by
  rcases p with ⟨_ | ⟨g, gs⟩, later, split, before, after⟩
  · simp at before
  · have chain := chain_advance s seconds
    have stays := (isRunning_advance h x seconds).mp hx
    have here : s.head = g := by rw [head, split]; rfl
    rw [split, here, List.cons_append, List.tail_cons] at chain
    rw [List.flatten_cons, List.map_append] at before
    have survives : x ∈ g.map (·.id) →
        x ∈ (Group.survivors seconds g).map (·.id) := by
      intro hg
      rcases List.mem_map.mp hg with ⟨m, hm, rfl⟩
      have ended := stays.2 m (here ▸ hm) rfl
      exact List.mem_map.mpr ⟨_, Group.mem_survivors.mpr ⟨⟨m, hm, rfl⟩, ended⟩, rfl⟩
    cases left : Group.survivors seconds g with
    | nil =>
        rw [left] at survives chain
        refine ⟨gs, later, by simpa using chain, ?_, after⟩
        exact (List.mem_append.mp before).resolve_left fun hg => by simpa using survives hg
    | cons m ms =>
        rw [left] at survives chain
        refine ⟨(m :: ms) :: gs, later, by simpa using chain, ?_, after⟩
        rw [List.flatten_cons, List.map_append]
        exact List.mem_append.mpr ((List.mem_append.mp before).imp_left survives)

/-- Two animations keep their precedence for as long as both are there. -/
theorem step (h : s.Tidy) (p : s.Precedes x y) (op : Operation α μ ι)
    (hx : (s.step op).value.isRunning x = true) (hy : (s.step op).value.isRunning y = true) :
    (s.step op).value.Precedes x y := by
  have unchanged : ∀ s' : Scheduler α μ ι, s'.chain = s.chain → s'.Precedes x y := by
    intro s' same
    rwa [Precedes, same]
  cases op with
  | add a force => exact p.add h a force hx hy
  | advance seconds => exact p.advance h seconds hx
  | read c fallback => exact unchanged _ (chain_read s c fallback)
  | rect v => exact unchanged _ (chain_rect s v)
  | save a => exact unchanged _ (chain_save s a)
  | clear => simp [Scheduler.step, clear, isRunning, members] at hx

end Precedes

variable [Scalar α] [Motion α μ]

omit [Scalar α] [Motion α μ] in
/-- Every number in the chain has been given. -/
theorem given_of_isRunning {s : Scheduler α μ ι} (h : s.Tidy) {x : Nat}
    (hx : s.isRunning x = true) : x < s.nextId := by
  rcases isRunning_iff.mp hx with ⟨m, hm, rfl⟩
  exact h.given m hm

/-- The next number never gets smaller in a run. -/
theorem nextId_mono_run (before after : List (Operation α μ ι)) :
    (run before : Watched α μ ι (Scheduler α μ ι)).value.nextId ≤
      (run (before ++ after) : Watched α μ ι (Scheduler α μ ι)).value.nextId := by
  induction after using List.reverseRecOn with
  | nil => simp
  | append_singleton after op ih =>
      rw [← List.append_assoc, run_concat, Logged.value_bind]
      exact Nat.le_trans ih (nextId_mono_step _ op)

/-- Two animations keep their precedence over a run in the end of which both are there. -/
theorem Precedes.run {before : List (Operation α μ ι)} {x y : Nat}
    (p : (run before).value.Precedes x y) (after : List (Operation α μ ι))
    (hx : (run (before ++ after)).value.isRunning x = true)
    (hy : (run (before ++ after)).value.isRunning y = true) :
    (run (before ++ after)).value.Precedes x y := by
  induction after using List.reverseRecOn with
  | nil => simpa using p
  | append_singleton after op ih =>
      have given : ∀ {z}, (Scheduler.run before).value.isRunning z = true →
          z < (Scheduler.run (before ++ after)).value.nextId := fun hz =>
        Nat.lt_of_lt_of_le (given_of_isRunning (tidy_run before) hz) (nextId_mono_run before after)
      have tidy := tidy_run (before ++ after)
      rw [← List.append_assoc, run_concat, Logged.value_bind] at hx hy ⊢
      have stayed : ∀ {z}, (Scheduler.run before).value.isRunning z = true →
          ((Scheduler.run (before ++ after)).value.step op).value.isRunning z = true →
          (Scheduler.run (before ++ after)).value.isRunning z = true := fun hz later =>
        ((isRunning_step tidy (given hz) op).mp later).1
      exact (ih (stayed p.isRunning_left hx) (stayed p.isRunning_right hy)).step tidy op hx hy

/-- Who preceded a member of the running group is gone. -/
theorem Precedes.gone_of_mem_head {before : List (Operation α μ ι)} {x y : Nat}
    (p : (Scheduler.run before).value.Precedes x y) (after : List (Operation α μ ι))
    (turn : y ∈ (Scheduler.run (before ++ after)).value.head.map (·.id)) :
    (Scheduler.run (before ++ after)).value.isRunning x = false := by
  rw [← Bool.not_eq_true]
  intro hx
  have hy : (Scheduler.run (before ++ after)).value.isRunning y = true := by
    rw [isRunning_iff_mem_ids, members_eq, List.map_append]
    exact List.mem_append_left _ turn
  exact (p.run after hx hy).not_mem_head (tidy_run _) turn

/-- How time passes after any run.  The members of the running group have their turns one
after the other, and nobody else is asked for anything; the arena holds what the chain
says it does.  So whatever is done later on, an animation has a turn only when everybody
who once preceded it is gone. -/
theorem run_turn_by_turn (before after : List (Operation α μ ι)) (seconds : α) :
    ArenaScheduler.run before = ArenaScheduler.of <$> run before ∧
      ArenaScheduler.TurnByTurn (run before).value seconds ∧
      ∀ x y, (run before).value.Precedes x y →
        y ∈ (run (before ++ after)).value.head.map (·.id) →
        (run (before ++ after)).value.isRunning x = false :=
  ⟨ArenaScheduler.run_eq before, ArenaScheduler.turnByTurn_of_tidy (tidy_run before) seconds,
    fun _ _ precedes turn => precedes.gone_of_mem_head after turn⟩

end CameraMotion.Scheduler
