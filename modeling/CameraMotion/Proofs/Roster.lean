import CameraMotion.Proofs.Advance
import CameraMotion.Proofs.Life
import Mathlib.Data.List.Nodup

/-!
# Rosters

Which leaves of an animation run and which wait, by their numbers.  Whoever is on
the roster of an animation comes into the phases that the roster tells, in the
right order, and nobody else notices anything.  A part of an animation does not
change the phase of a leaf in another part, so what the parts do adds up.

Main results:

- Theorem `Tracks.append`: two parts that follow their rosters do so together.
- Theorem `Animation.tracks_start`: an animation that is started turns its idle
  leaves into those of its roster.
- Theorem `Animation.tracks_turn`: in its turn, an animation follows its roster, and
  leaves nobody behind when it is over.
- Theorem `Animation.tracks_advance`: so it does while time passes in it.
-/

namespace CameraMotion

/-- The numbers of the leaves that run, and of those that wait. -/
structure Roster where
  running : List Nat
  waiting : List Nat

namespace Roster

def empty : Roster :=
  ⟨[], []⟩

def all (r : Roster) : List Nat :=
  r.running ++ r.waiting

instance : Append Roster :=
  ⟨fun r u => ⟨r.running ++ u.running, r.waiting ++ u.waiting⟩⟩

def sum : List Roster → Roster
  | [] => empty
  | r :: rs => r ++ sum rs

/-- How far a leaf has come that was on the roster in the beginning: once it is no
longer there, it has finished. -/
def phase (r : Roster) (k : Nat) : Phase :=
  if k ∈ r.running then .running else if k ∈ r.waiting then .waiting else .finished

/-- Nobody is on the roster twice. -/
def Distinct (r : Roster) : Prop :=
  r.all.Nodup

/-- The running leaves of two rosters are those of the first one and those of the second. -/
@[simp]
theorem running_append (r u : Roster) : (r ++ u).running = r.running ++ u.running :=
  rfl

/-- The waiting leaves of two rosters are those of the first one and those of the second. -/
@[simp]
theorem waiting_append (r u : Roster) : (r ++ u).waiting = r.waiting ++ u.waiting :=
  rfl

/-- There is no leaf in the empty roster. -/
@[simp]
theorem all_empty : empty.all = [] :=
  rfl

/-- A leaf of a roster runs or waits. -/
@[simp]
theorem mem_all {r : Roster} {k : Nat} : k ∈ r.all ↔ k ∈ r.running ∨ k ∈ r.waiting := by
  simp [all]

/-- The empty roster adds nothing in front. -/
@[simp]
theorem empty_append (r : Roster) : empty ++ r = r :=
  rfl

/-- The empty roster adds nothing behind. -/
@[simp]
theorem append_empty (r : Roster) : r ++ empty = r := by
  rcases r with ⟨running, waiting⟩
  show Roster.mk (running ++ []) (waiting ++ []) = _
  rw [List.append_nil, List.append_nil]

/-- Nothing adds up to the empty roster. -/
@[simp]
theorem sum_nil : sum [] = empty :=
  rfl

/-- Rosters add up one by one. -/
@[simp]
theorem sum_cons (r : Roster) (rs : List Roster) : sum (r :: rs) = r ++ sum rs :=
  rfl

/-- The leaves of two rosters are those of both, up to order. -/
theorem all_append_perm (r u : Roster) : (r ++ u).all.Perm (r.all ++ u.all) := by
  simp only [all, running_append, waiting_append, List.append_assoc]
  exact (List.perm_append_comm_assoc u.running r.waiting u.waiting).append_left r.running

/-- A leaf occurs in two rosters as often as in both of them. -/
theorem count_all_append (r u : Roster) (k : Nat) :
    (r ++ u).all.count k = r.all.count k + u.all.count k := by
  rw [(all_append_perm r u).count_eq, List.count_append]

/-- A leaf that is not on the roster has finished. -/
theorem phase_of_not_mem {r : Roster} {k : Nat} (h : k ∉ r.all) : r.phase k = .finished := by
  rw [mem_all, not_or] at h
  rw [phase, if_neg h.1, if_neg h.2]

/-- The leaves that run are the running ones. -/
theorem phase_eq_running_iff {r : Roster} {k : Nat} :
    r.phase k = .running ↔ k ∈ r.running := by
  unfold phase
  split
  · simp [*]
  · split <;> simp [*]

/-- A leaf that waits is one of the waiting ones. -/
theorem mem_waiting_of_phase {r : Roster} {k : Nat} (h : r.phase k = .waiting) :
    k ∈ r.waiting := by
  unfold phase at h
  by_contra elsewhere
  rw [if_neg elsewhere] at h
  split at h <;> simp at h

/-- A leaf that is not on the second roster has the phase that it has on the first one. -/
theorem phase_append_left {r u : Roster} {k : Nat} (h : k ∉ u.all) :
    (r ++ u).phase k = r.phase k := by
  rw [mem_all, not_or] at h
  simp [phase, h.1, h.2]

/-- A leaf that is not on the first roster has the phase that it has on the second one. -/
theorem phase_append_right {r u : Roster} {k : Nat} (h : k ∉ r.all) :
    (r ++ u).phase k = u.phase k := by
  rw [mem_all, not_or] at h
  simp [phase, h.1, h.2]

/-- Of two rosters together each is distinct, and nobody is on both. -/
theorem distinct_append {r u : Roster} (h : (r ++ u).Distinct) :
    r.Distinct ∧ u.Distinct ∧ ∀ k ∈ r.all, k ∉ u.all := by
  have both : (r.all ++ u.all).Nodup := (all_append_perm r u).nodup_iff.mp h
  rcases List.nodup_append.mp both with ⟨hr, hu, apart⟩
  refine ⟨hr, hu, ?_⟩
  intro k hk hk'
  exact apart k hk k hk' rfl

end Roster

/-! ## Following a roster -/

variable {ι β : Type}

/-- What is noticed leads everybody from the phase that one roster tells to the phase
that another one tells, and nobody joins. -/
structure Tracks (r : Roster) (ms : List ((ι × Nat) × Moment)) (r' : Roster) : Prop where
  lives : ∀ k, (r.phase k).after (trace k ms) = some (r'.phase k)
  count_le : ∀ k, r'.all.count k ≤ r.all.count k

namespace Tracks

variable {r r' r'' u u' : Roster} {ms ns : List ((ι × Nat) × Moment)}

/-- Where nothing is noticed the roster stays as it is. -/
theorem refl (r : Roster) : Tracks r ([] : List ((ι × Nat) × Moment)) r :=
  ⟨fun _ => rfl, fun _ => Nat.le_refl _⟩

/-- A roster is tracked through one list of moments after the other. -/
theorem trans (h : Tracks r ms r') (h' : Tracks r' ns r'') : Tracks r (ms ++ ns) r'' := by
  constructor
  · intro k
    rw [trace_append, Phase.after_append, h.lives k]
    exact h'.lives k
  · intro k
    exact Nat.le_trans (h'.count_le k) (h.count_le k)

/-- Nobody comes onto a roster. -/
theorem subset (h : Tracks r ms r') {k : Nat} (hk : k ∈ r'.all) : k ∈ r.all := by
  have present : 0 < r'.all.count k := List.count_pos_iff.mpr hk
  have before : r'.all.count k ≤ r.all.count k := h.count_le k
  exact List.count_pos_iff.mp (by omega)

/-- Who is not on the roster notices nothing. -/
theorem trace_of_not_mem (h : Tracks r ms r') {k : Nat} (hk : k ∉ r.all) :
    trace k ms = [] := by
  have lives : Phase.finished.after (trace k ms) = some (r'.phase k) := by
    rw [← Roster.phase_of_not_mem hk]
    exact h.lives k
  exact (Phase.after_finished_eq_some lives).1

/-- The leaves of a roster stay distinct. -/
theorem distinct (h : Tracks r ms r') (distinct : r.Distinct) : r'.Distinct := by
  rw [Roster.Distinct, List.nodup_iff_count_le_one] at distinct ⊢
  intro k
  exact Nat.le_trans (h.count_le k) (distinct k)

/-- Two parts that follow their rosters do so together. -/
theorem append (h : Tracks r ms r') (h' : Tracks u ns u') (distinct : (r ++ u).Distinct) :
    Tracks (r ++ u) (ms ++ ns) (r' ++ u') := by
  rcases Roster.distinct_append distinct with ⟨_, _, apart⟩
  constructor
  · intro k
    rw [trace_append]
    by_cases hk : k ∈ r.all
    · -- The leaf belongs to the first part.
      have hu : k ∉ u.all := apart k hk
      have hu' : k ∉ u'.all := fun hk' => hu (h'.subset hk')
      rw [Roster.phase_append_left hu, Roster.phase_append_left hu', h'.trace_of_not_mem hu,
        List.append_nil]
      exact h.lives k
    · have hk' : k ∉ r'.all := fun hk' => hk (h.subset hk')
      rw [Roster.phase_append_right hk, Roster.phase_append_right hk', h.trace_of_not_mem hk,
        List.nil_append]
      exact h'.lives k
  · intro k
    rw [Roster.count_all_append, Roster.count_all_append]
    exact Nat.add_le_add (h.count_le k) (h'.count_le k)

/-- A roster is tracked beside another one. -/
theorem append_right (h : Tracks r ms r') (distinct : (r ++ u).Distinct) :
    Tracks (r ++ u) ms (r' ++ u) := by
  simpa using h.append (refl u) distinct

/-- Several parts that follow their rosters do so together. -/
theorem sum {xs : List β} {f f' : β → Roster} {m : β → List ((ι × Nat) × Moment)}
    (h : ∀ x ∈ xs, (f x).Distinct → Tracks (f x) (m x) (f' x))
    (distinct : (Roster.sum (xs.map f)).Distinct) :
    Tracks (Roster.sum (xs.map f)) (xs.flatMap m) (Roster.sum (xs.map f')) := by
  induction xs with
  | nil => exact refl _
  | cons x xs ih =>
      rw [List.map_cons, Roster.sum_cons] at distinct
      rcases Roster.distinct_append distinct with ⟨here, later, _⟩
      simp only [List.map_cons, Roster.sum_cons, List.flatMap_cons]
      have rest : ∀ y ∈ xs, (f y).Distinct → Tracks (f y) (m y) (f' y) := by
        intro y hy
        exact h y (List.mem_cons_of_mem _ hy)
      exact (h x (by simp) here).append (ih rest later) distinct

end Tracks

/-! ## The roster of an animation -/

namespace Animation

variable {α μ : Type}

/-- Who runs in the animation and who waits. -/
def roster (a : Animation α μ (ι × Nat)) : Roster :=
  ⟨a.running.map (·.1.2), a.waiting.map (·.1.2)⟩

/-- The numbers of all leaves. -/
def numbers (a : Animation α μ (ι × Nat)) : List Nat :=
  a.leaves.map (·.1.2)

/-- The roster before the start: everybody waits. -/
def idle (a : Animation α μ (ι × Nat)) : Roster :=
  ⟨[], a.numbers⟩

/-- Everybody is on the roster once. -/
theorem numbers_perm (a : Animation α μ (ι × Nat)) : a.numbers.Perm a.roster.all := by
  rw [numbers, Roster.all, roster, ← List.map_append]
  exact a.leaves_perm.map _

/-- A leaf runs. -/
@[simp]
theorem roster_leaf (listener : ι × Nat) (body : Leaf α μ) :
    (Animation.leaf listener body).roster = ⟨[listener.2], []⟩ := by
  simp [roster]

/-- The roster of a parallel is that of its members together. -/
@[simp]
theorem roster_parallel (declared : Declarations) (members : List (Animation α μ (ι × Nat))) :
    (Animation.parallel declared members).roster = Roster.sum (members.map roster) := by
  induction members with
  | nil => simp [roster, Roster.empty]
  | cons m ms ih =>
      rw [List.map_cons, Roster.sum_cons, ← ih]
      simp only [roster, running_parallel, waiting_parallel, List.flatMap_cons, List.map_append]
      rfl

/-- Nobody is on the roster of a sequence without stages. -/
@[simp]
theorem roster_sequence_nil :
    (Animation.sequence [] : Animation α μ (ι × Nat)).roster = .empty := by
  simp [roster, Roster.empty]

/-- Nobody waits in a sequence without stages. -/
@[simp]
theorem idle_sequence_nil :
    (Animation.sequence [] : Animation α μ (ι × Nat)).idle = .empty := by
  simp [idle, numbers, Roster.empty]

/-- In a sequence the leaves of the running stage have their phases, and those of the others
wait. -/
@[simp]
theorem roster_sequence_cons (head : Animation α μ (ι × Nat))
    (rest : List (Animation α μ (ι × Nat))) :
    (Animation.sequence (head :: rest)).roster = head.roster ++ (Animation.sequence rest).idle := by
  simp only [roster, idle, numbers, running_sequence_cons, waiting_sequence_cons,
    leaves_sequence, List.map_append]
  show _ = Roster.mk (_ ++ []) _
  rw [List.append_nil]

/-- In a sequence that has not begun the leaves of all stages wait. -/
@[simp]
theorem idle_sequence_cons (head : Animation α μ (ι × Nat))
    (rest : List (Animation α μ (ι × Nat))) :
    (Animation.sequence (head :: rest)).idle = head.idle ++ (Animation.sequence rest).idle := by
  simp only [idle, numbers, leaves_sequence, List.flatMap_cons, List.map_append]
  rfl

/-! ## Hooks -/

variable [Scalar α] [Motion α μ]

/-- Each running leaf is told of a hook once, and nobody else is. -/
theorem trace_tell (hook : Hook) (a : Animation α μ (ι × Nat)) (distinct : a.roster.Distinct)
    (ended : hook = .finish → a.finished = true) (k : Nat) :
    trace k (a.tell hook).moments = if k ∈ a.roster.running then [.told hook] else [] := by
  rw [moments_tell hook a ended]
  exact trace_told k hook (List.Nodup.of_append_left distinct)

/-- Who is not in an animation notices nothing of its hooks. -/
theorem trace_tell_of_not_mem (hook : Hook) (a : Animation α μ (ι × Nat))
    (distinct : a.roster.Distinct) (ended : hook = .finish → a.finished = true) {k : Nat}
    (absent : k ∉ a.roster.all) : trace k (a.tell hook).moments = [] := by
  rw [Roster.mem_all, not_or] at absent
  rw [trace_tell hook a distinct ended, if_neg absent.1]

/-- A start leads the idle leaves of an animation to its roster. -/
theorem tracks_start (a : Animation α μ (ι × Nat)) (distinct : a.idle.Distinct) :
    Tracks a.idle (a.tell .start).moments a.roster := by
  have perm : a.idle.all.Perm a.roster.all := a.numbers_perm
  constructor
  · intro k
    rw [trace_tell .start a (perm.nodup_iff.mp distinct) (by simp)]
    have member : k ∈ a.numbers ↔ k ∈ a.roster.all := a.numbers_perm.mem_iff
    rw [Roster.mem_all] at member
    by_cases runs : k ∈ a.roster.running
    · simp [Roster.phase, idle, member, runs, Phase.next]
    · simp [Roster.phase, idle, member, runs]
  · intro k
    exact Nat.le_of_eq (perm.count_eq k).symm

/-- The finish of an animation that is over leaves nobody behind. -/
theorem tracks_finish (a : Animation α μ (ι × Nat)) (distinct : a.roster.Distinct)
    (ended : a.finished = true) : Tracks a.roster (a.tell .finish).moments .empty := by
  have nobody : a.roster.waiting = [] := by
    rw [roster, a.waiting_of_finished ended, List.map_nil]
  constructor
  · intro k
    rw [trace_tell .finish a distinct fun _ => ended]
    by_cases runs : k ∈ a.roster.running
    · simp [Roster.phase, Roster.empty, runs, Phase.next]
    · simp [Roster.phase, Roster.empty, runs, nobody]
  · intro k
    simp

/-! ## Time -/

/-- Who is left of an animation after its turn: nobody once it is over. -/
def left (seconds : α) (a : Animation α μ (ι × Nat)) : Roster :=
  if (a.advanced seconds).finished then .empty else (a.advanced seconds).roster

/-- The roster of those who stay is what is left of all of them. -/
theorem sum_roster_stayers (seconds : α) (ms : List (Animation α μ (ι × Nat))) :
    Roster.sum ((stayers seconds ms).map roster) = Roster.sum (ms.map (·.left seconds)) := by
  induction ms with
  | nil => rfl
  | cons m ms ih =>
      rw [List.map_cons, Roster.sum_cons, ← ih]
      cases ended : (m.advanced seconds).finished <;> simp [stayers, left, ended]

/-- The turn of a part tracks its roster to what is left of it. -/
theorem tracks_turn_of_advance {seconds : α} {a : Animation α μ (ι × Nat)}
    (h : Tracks a.roster (a.advance seconds).moments (a.advanced seconds).roster)
    (distinct : a.roster.Distinct) :
    Tracks a.roster (a.turn seconds) (a.left seconds) := by
  rw [turn, left]
  cases ended : (a.advanced seconds).finished with
  | false => simpa using h
  | true => exact h.trans (tracks_finish _ (h.distinct distinct) ended)

/-- While time passes, an animation follows its roster. -/
theorem tracks_advance (seconds : α) (a : Animation α μ (ι × Nat))
    (distinct : a.roster.Distinct) :
    Tracks a.roster (a.advance seconds).moments (a.advanced seconds).roster := by
  induction a with
  | leaf listener body =>
      constructor
      · intro k
        by_cases here : listener.2 = k
        · simp [Roster.phase, trace, here, Phase.next]
        · simp [Roster.phase, trace, here, Ne.symm here]
      · intro k
        simp
  | parallel declared members ih =>
      rw [roster_parallel] at distinct
      rw [roster_parallel, moments_advance_parallel, advanced_parallel, roster_parallel,
        sum_roster_stayers]
      exact .sum (fun m hm here => tracks_turn_of_advance (ih m hm here) here) distinct
  | sequence stages ih =>
      cases stages with
      | nil => simpa using Tracks.refl _
      | cons head rest =>
          rw [roster_sequence_cons] at distinct ⊢
          rcases Roster.distinct_append distinct with ⟨running, coming, _⟩
          have here := ih head (by simp) running
          cases rest with
          | nil => simpa using here
          | cons next later =>
              have turn := (tracks_turn_of_advance here running).append_right distinct
              rw [moments_advance_sequence_cons_cons, advanced_sequence_cons_cons]
              cases ended : (head.advanced seconds).finished with
              | false => simpa [left, ended] using turn
              | true =>
                  -- Nobody is left of the stage that was running, and the next one starts.
                  simp only [left, ended, if_true, Roster.empty_append] at turn ⊢
                  rw [idle_sequence_cons] at coming
                  rcases Roster.distinct_append coming with ⟨fresh, _, _⟩
                  have start := (next.tracks_start fresh).append_right coming
                  rw [← idle_sequence_cons, ← roster_sequence_cons] at start
                  exact turn.trans start

/-- In its turn, an animation follows its roster, and leaves nobody behind when it is
over. -/
theorem tracks_turn (seconds : α) (a : Animation α μ (ι × Nat))
    (distinct : a.roster.Distinct) : Tracks a.roster (a.turn seconds) (a.left seconds) :=
  tracks_turn_of_advance (tracks_advance seconds a distinct) distinct

end Animation

end CameraMotion
