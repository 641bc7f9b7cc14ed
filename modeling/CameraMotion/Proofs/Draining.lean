import CameraMotion.Proofs.Punctual
import CameraMotion.Proofs.Alone
import CameraMotion.Proofs.Members

/-!
# Draining

When nobody is inserted any more, time empties the chain.  A leaf takes no more steps of
some length than fit into its duration, and one more; a parallel is over when its slowest
member is, a sequence when its stages are, one after the other, and a group gives way
when nobody is left in it.  So all of them together take no more steps than their leaves,
and one for each parallel and each sequence.

Main results:

- Theorem `Animation.endsWithin_sequence`: a sequence takes no more steps than its stages
  together.
- Theorem `Animation.Timely.endsWithin`: how many steps an animation takes at most.
- Theorem `Scheduler.Drains.step`: every step brings the end of the chain nearer.
- Theorem `Scheduler.run_drains`: how many steps it takes at most until no animation is
  left.
-/

namespace CameraMotion

variable {μ ι : Type}

namespace Animation

/-! ## Leaves and containers -/

mutual

/-- The number of parallels and sequences. -/
def containers {α : Type} : Animation α μ ι → Nat
  | .leaf _ _ => 0
  | .parallel _ members => containersAll members + 1
  | .sequence stages => containersAll stages + 1

/-- The number of parallels and sequences in several animations. -/
def containersAll {α : Type} : List (Animation α μ ι) → Nat
  | [] => 0
  | m :: ms => m.containers + containersAll ms

end

/-- What the leaves of several animations weigh together, with one more for each parallel
and each sequence, is what the animations weigh. -/
theorem sum_leaves_add_containersAll {α : Type} (weight : ι × Leaf α μ → Nat)
    (ms : List (Animation α μ ι)) :
    ((ms.flatMap leaves).map weight).sum + containersAll ms =
      (ms.map fun m => (m.leaves.map weight).sum + m.containers).sum := by
  induction ms with
  | nil => rfl
  | cons m ms ih =>
      rw [List.flatMap_cons, List.map_append, List.sum_append, containersAll, List.map_cons,
        List.sum_cons, ← ih]
      omega

variable [Motion ℝ μ]

/-- All leaves end in time. -/
def Timely (a : Animation ℝ μ ι) : Prop :=
  ∀ l ∈ a.leaves, l.2.Timely

/-- How many steps of some length the animation takes at most: those of its leaves, and
one for each parallel and each sequence. -/
noncomputable def calls (d : ℝ) (a : Animation ℝ μ ι) : Nat :=
  (a.leaves.map fun l => l.2.calls d).sum + a.containers

variable {d : ℝ}

/-- A leaf of an animation needs as many calls as the leaf itself. -/
@[simp]
theorem calls_leaf (listener : ι) (body : Leaf ℝ μ) :
    (Animation.leaf listener body).calls d = body.calls d := by
  simp [calls, containers]

/-- A parallel needs the calls of its members and one of its own. -/
@[simp]
theorem calls_parallel (declared : Declarations) (members : List (Animation ℝ μ ι)) :
    (Animation.parallel declared members).calls d = (members.map (calls d)).sum + 1 := by
  rw [calls, leaves_parallel, containers, ← add_assoc, sum_leaves_add_containersAll]
  rfl

/-- A sequence needs the calls of its stages and one of its own. -/
@[simp]
theorem calls_sequence (stages : List (Animation ℝ μ ι)) :
    (Animation.sequence stages).calls d = (stages.map (calls d)).sum + 1 := by
  rw [calls, leaves_sequence, containers, ← add_assoc, sum_leaves_add_containersAll]
  rfl

/-- Every animation needs a call. -/
theorem calls_pos (a : Animation ℝ μ ι) : 0 < a.calls d := by
  cases a <;> simp [Leaf.calls]

/-- Time leaves leaves alone, or passes in them. -/
theorem mem_leaves_advanced {a : Animation ℝ μ ι} {seconds : ℝ} {l : ι × Leaf ℝ μ}
    (h : l ∈ (a.advanced seconds).leaves) :
    l ∈ a.leaves ∨ ∃ l₀ ∈ a.leaves, l = (l₀.1, l₀.2.advance seconds) := by
  induction a with
  | leaf listener body => exact .inr ⟨_, List.mem_singleton_self _, by simpa using h⟩
  | parallel declared members ih =>
      rw [advanced_parallel, leaves_parallel, List.mem_flatMap] at h
      rcases h with ⟨m, hm, h⟩
      rcases mem_stayers.mp hm with ⟨⟨m₀, hm₀, rfl⟩, _⟩
      rw [leaves_parallel]
      rcases ih m₀ hm₀ h with there | ⟨l₀, there, rfl⟩
      · exact .inl (List.mem_flatMap.mpr ⟨m₀, hm₀, there⟩)
      · exact .inr ⟨l₀, List.mem_flatMap.mpr ⟨m₀, hm₀, there⟩, rfl⟩
  | sequence stages ih =>
      have running {head : Animation ℝ μ ι} (hs : head ∈ stages)
          (h : l ∈ (head.advanced seconds).leaves) : l ∈ (sequence stages).leaves ∨
          ∃ l₀ ∈ (sequence stages).leaves, l = (l₀.1, l₀.2.advance seconds) := by
        rw [leaves_sequence]
        rcases ih head hs h with there | ⟨l₀, there, rfl⟩
        · exact .inl (List.mem_flatMap.mpr ⟨head, hs, there⟩)
        · exact .inr ⟨l₀, List.mem_flatMap.mpr ⟨head, hs, there⟩, rfl⟩
      rcases stages with _ | ⟨head, _ | ⟨next, later⟩⟩
      · simp at h
      · rw [advanced_sequence_single] at h
        exact running List.mem_cons_self (by simpa using h)
      · rw [advanced_sequence_cons_cons] at h
        have waits (h : l ∈ (sequence (next :: later)).leaves) :
            l ∈ (sequence (head :: next :: later)).leaves := by
          rw [leaves_sequence] at h ⊢
          exact List.mem_append_right _ h
        split at h
        · exact .inl (waits h)
        · rw [leaves_sequence, List.flatMap_cons, List.mem_append, ← leaves_sequence] at h
          rcases h with h | h
          · exact running List.mem_cons_self h
          · exact .inl (waits h)

/-- The leaves of an animation stay timely while time passes. -/
theorem Timely.advanced {a : Animation ℝ μ ι} (h : a.Timely) {seconds : ℝ}
    (forward : 0 ≤ seconds) : (a.advanced seconds).Timely := by
  intro l hl
  rcases mem_leaves_advanced hl with there | ⟨l₀, there, rfl⟩
  · exact h l there
  · exact (h l₀ there).advance forward

/-! ## Steps to the end -/

/-- However time passes in steps of at least some length, the animation is over after one
of so many steps. -/
def EndsWithin (d : ℝ) : Nat → Animation ℝ μ ι → Prop
  | 0, _ => False
  | n + 1, a => ∀ x, d ≤ x → (a.advanced x).finished = true ∨ EndsWithin d n (a.advanced x)

/-- Who ends within some calls ends within more. -/
theorem EndsWithin.mono {a : Animation ℝ μ ι} {n k : Nat} (h : a.EndsWithin d n)
    (le : n ≤ k) : a.EndsWithin d k := by
  induction n generalizing a k with
  | zero => exact h.elim
  | succ n ih =>
      cases k with
      | zero => omega
      | succ k => exact fun x hx => (h x hx).imp_right fun h => ih h (by omega)

/-- Who is over after exactly so many steps ends within them. -/
theorem endsWithin_of_finished {a : Animation ℝ μ ι} {n : Nat} (positive : 0 < n)
    (h : ∀ steps : List ℝ, (∀ x ∈ steps, d ≤ x) → steps.length = n →
      (a.elapsed steps).finished = true) : a.EndsWithin d n := by
  induction n generalizing a with
  | zero => omega
  | succ n ih =>
      intro x hx
      cases n with
      | zero => exact .inl (h [x] (by simpa using hx) rfl)
      | succ n =>
          refine .inr (ih (by omega) fun steps paced length => ?_)
          exact h (x :: steps) (by simpa using ⟨hx, paced⟩) (by simp [length])

/-- A timely leaf ends within the calls that its duration allows for. -/
theorem endsWithin_leaf {listener : ι} {body : Leaf ℝ μ} (positive : 0 < d) (h : body.Timely) :
    (Animation.leaf listener body).EndsWithin d (body.calls d) := by
  refine endsWithin_of_finished (Nat.succ_pos _) fun steps paced length => ?_
  rw [elapsed_leaf, finished]
  exact h.finished_of_calls positive paced (le_of_eq length.symm)

/-- A parallel takes no more steps than the slowest of its members. -/
theorem endsWithin_parallel {declared : Declarations} {members : List (Animation ℝ μ ι)}
    {n : Nat} (positive : 0 < n) (h : ∀ m ∈ members, m.EndsWithin d n) :
    (Animation.parallel declared members).EndsWithin d n := by
  induction n generalizing members with
  | zero => omega
  | succ n ih =>
      intro x hx
      rw [advanced_parallel, finished_parallel, List.isEmpty_iff]
      have left : ∀ m ∈ stayers x members, m.EndsWithin d n := by
        intro m hm
        rcases mem_stayers.mp hm with ⟨⟨m₀, hm₀, rfl⟩, stays⟩
        exact (h m₀ hm₀ x hx).resolve_left (by simp [stays])
      cases stay : stayers x members with
      | nil => exact .inl rfl
      | cons m ms =>
          rw [stay] at left
          refine .inr (ih (Nat.pos_of_ne_zero ?_) left)
          rintro rfl
          exact left m List.mem_cons_self

/-- A sequence with a single stage takes no more steps than that stage. -/
theorem EndsWithin.sequence_single {last : Animation ℝ μ ι} {n : Nat}
    (h : last.EndsWithin d n) : (Animation.sequence [last]).EndsWithin d n := by
  induction n generalizing last with
  | zero => exact h
  | succ n ih =>
      intro x hx
      rw [advanced_sequence_single, finished_sequence_single]
      exact (h x hx).imp_right ih

/-- A sequence takes no more steps than its running stage and the later ones. -/
theorem EndsWithin.sequence_cons_cons {head next : Animation ℝ μ ι}
    {later : List (Animation ℝ μ ι)} {n k : Nat} (h : head.EndsWithin d n)
    (rest : (Animation.sequence (next :: later)).EndsWithin d k) :
    (Animation.sequence (head :: next :: later)).EndsWithin d (n + k) := by
  induction n generalizing head with
  | zero => exact h.elim
  | succ n ih =>
      rw [Nat.succ_add]
      intro x hx
      rw [advanced_sequence_cons_cons]
      split_ifs with ended
      · exact .inr (rest.mono (Nat.le_add_left k n))
      · exact .inr (ih ((h x hx).resolve_left ended))

/-- A sequence takes no more steps than its stages together. -/
theorem endsWithin_sequence {stages : List (Animation ℝ μ ι)}
    (h : ∀ m ∈ stages, m.EndsWithin d (m.calls d)) :
    (Animation.sequence stages).EndsWithin d ((stages.map (calls d)).sum + 1) := by
  induction stages with
  | nil => exact fun x _ => .inl (by simp [finished])
  | cons head rest ih =>
      have here := h head List.mem_cons_self
      have ih := ih fun m hm => h m (List.mem_cons_of_mem _ hm)
      cases rest with
      | nil => exact here.sequence_single.mono (by simp)
      | cons next later =>
          rw [List.map_cons, List.sum_cons, Nat.add_assoc]
          exact here.sequence_cons_cons ih

/-- An animation takes no more steps than its leaves together, and one for each parallel
and each sequence. -/
theorem Timely.endsWithin {a : Animation ℝ μ ι} (h : a.Timely) (positive : 0 < d) :
    a.EndsWithin d (a.calls d) := by
  induction a with
  | leaf listener body =>
      rw [calls_leaf]
      exact endsWithin_leaf positive (h (listener, body) (by simp))
  | parallel declared members ih =>
      rw [calls_parallel]
      refine endsWithin_parallel (Nat.succ_pos _) fun m hm => ?_
      have timely : m.Timely := fun l hl => h l (by simpa using ⟨m, hm, hl⟩)
      have among : m.calls d ≤ (members.map (calls d)).sum :=
        List.single_le_sum (by simp) _ (List.mem_map_of_mem hm)
      exact (ih m hm timely).mono (Nat.le_succ_of_le among)
  | sequence stages ih =>
      rw [calls_sequence]
      refine endsWithin_sequence fun m hm => ih m hm fun l hl => h l ?_
      simpa using ⟨m, hm, hl⟩

end Animation

/-! ## Steps of a run -/

namespace Operation

variable {α : Type}

/-- The seconds that pass with an operation, if any do. -/
def seconds? : Operation α μ ι → Option α
  | .advance seconds => some seconds
  | _ => none

/-- The steps in which time passes over a run. -/
def steps (ops : List (Operation α μ ι)) : List α :=
  ops.filterMap seconds?

/-- The steps of a longer run are those of the shorter one and then the others. -/
theorem steps_append (before after : List (Operation α μ ι)) :
    steps (before ++ after) = steps before ++ steps after :=
  List.filterMap_append

end Operation

namespace Scheduler

variable [Motion ℝ μ] {d : ℝ}

/-- How many steps of some length all animations together take at most. -/
noncomputable def calls (d : ℝ) (s : Scheduler ℝ μ ι) : Nat :=
  (s.members.map (·.animation.calls d)).sum

/-- The groups of a chain end one after the other, within so many steps. -/
inductive Drains (d : ℝ) : List (Group ℝ μ ι) → Nat → Prop where
  | nil (n : Nat) : Drains d [] n
  | cons {g : Group ℝ μ ι} {gs : List (Group ℝ μ ι)} {n k : Nat} (positive : 0 < n)
      (here : ∀ m ∈ g, m.animation.EndsWithin d n) (rest : Drains d gs k) :
      Drains d (g :: gs) (n + k)

/-- Groups that drain within some calls drain within more. -/
theorem Drains.mono {gs : List (Group ℝ μ ι)} {n k : Nat} (h : Drains d gs n) (le : n ≤ k) :
    Drains d gs k := by
  induction h generalizing k with
  | nil => exact .nil k
  | @cons g gs n j positive here _ ih =>
      have split : k = n + (k - n) := by omega
      rw [split]
      exact .cons positive here (ih (by omega))

/-- Nothing is left of a chain that ends within no step at all. -/
theorem Drains.eq_nil {gs : List (Group ℝ μ ι)} {n : Nat} (h : Drains d gs n) (none : n = 0) :
    gs = [] := by
  cases h with
  | nil => rfl
  | cons positive _ _ => omega

/-- Every step in which time passes brings the end of the chain nearer. -/
theorem Drains.advance {s : Scheduler ℝ μ ι} {n : Nat} (h : Drains d s.chain n) {x : ℝ}
    (hx : d ≤ x) : Drains d (s.advance x).value.chain (n - 1) := by
  rw [chain_advance]
  rcases s with ⟨chain, cache, nextId⟩
  cases h with
  | nil => exact .nil _
  | @cons g gs n k positive here rest =>
      rcases n with _ | n
      · omega
      · have sum : n + 1 + k - 1 = n + k := by omega
        have left : ∀ m ∈ Group.survivors x g, m.animation.EndsWithin d n := by
          intro m hm
          rcases Group.mem_survivors.mp hm with ⟨⟨m₀, hm₀, rfl⟩, stays⟩
          refine (here m₀ hm₀ x hx).resolve_left fun ended => ?_
          rw [Member.finished, Member.advanced, ended] at stays
          exact Bool.false_ne_true stays.symm
        rw [sum]
        cases stay : Group.survivors x g with
        | nil => simpa [head, stay] using rest.mono (Nat.le_add_left k n)
        | cons m ms =>
            rw [stay] at left
            have more : 0 < n := by
              refine Nat.pos_of_ne_zero ?_
              rintro rfl
              exact left m List.mem_cons_self
            simpa [head, stay] using Drains.cons more left rest

/-- An operation that inserts nobody brings the end of the chain nearer if time passes
with it, and otherwise leaves it where it is. -/
theorem Drains.step {s : Scheduler ℝ μ ι} {n : Nat} (h : Drains d s.chain n)
    {op : Operation ℝ μ ι} (closed : op.added? = none) (paced : ∀ x ∈ op.seconds?, d ≤ x) :
    Drains d (s.step op).value.chain (n - op.seconds?.toList.length) := by
  have unchanged : ∀ s' : Scheduler ℝ μ ι, s'.chain = s.chain → Drains d s'.chain (n - 0) := by
    intro s' same
    rwa [same]
  cases op with
  | add a force => simp [Operation.added?] at closed
  | advance x => exact h.advance (paced x rfl)
  | read c fallback => exact unchanged _ (chain_read s c fallback)
  | rect v => exact unchanged _ (chain_rect s v)
  | save a => exact unchanged _ (chain_save s a)
  | clear => exact .nil _

/-- A run that inserts nothing brings the end nearer with every step of time. -/
theorem Drains.run {before : List (Operation ℝ μ ι)} {n : Nat}
    (h : Drains d (Scheduler.run before).value.chain n) {after : List (Operation ℝ μ ι)}
    (closed : Operation.added after = []) (paced : ∀ x ∈ Operation.steps after, d ≤ x) :
    Drains d (Scheduler.run (before ++ after)).value.chain
      (n - (Operation.steps after).length) := by
  induction after using List.reverseRecOn with
  | nil => simpa [Operation.steps] using h
  | append_singleton after op ih =>
      rw [Operation.added_append, List.append_eq_nil_iff] at closed
      rw [Operation.steps_append] at paced ⊢
      have ih := ih closed.1 fun x hx => paced x (List.mem_append_left _ hx)
      have here : Operation.steps [op] = op.seconds?.toList := by
        cases op <;> rfl
      rw [← List.append_assoc, run_concat, Logged.value_bind, List.length_append, ← Nat.sub_sub,
        here]
      refine ih.step (by simpa using closed.2) fun x hx => paced x ?_
      rw [here]
      exact List.mem_append_right _ (by simpa using hx)

/-- Animations that end in time do so for as long as the scheduler has them, if time does
not run backwards. -/
theorem timely_run {ops : List (Operation ℝ μ ι)} (timely : ∀ a ∈ Operation.added ops, a.Timely)
    (forward : ∀ x ∈ Operation.steps ops, 0 ≤ x) :
    ∀ m ∈ (run ops).value.members, m.animation.Timely := by
  have added {op : Operation ℝ μ ι} (hop : op ∈ ops) {a : Animation ℝ μ ι}
      (same : op.added? = some a) : a.Timely :=
    timely a (List.mem_filterMap.mpr ⟨op, hop, same⟩)
  have passed {op : Operation ℝ μ ι} (hop : op ∈ ops) {x : ℝ} (same : op.seconds? = some x) :
      0 ≤ x :=
    forward x (List.mem_filterMap.mpr ⟨op, hop, same⟩)
  refine run_invariant (P := fun s => ∀ m ∈ s.members, m.animation.Timely)
    (Q := fun op => op ∈ ops) (by simp [members, empty]) (fun s op hop h m hm => ?_) ops
    fun op hop => hop
  rcases origin_of_mem_step hm with hm | ⟨x, rfl, n, hn, rfl⟩ | ⟨a, force, rfl, rfl⟩
  · exact h m hm
  · exact (h n (mem_members_of_mem_head hn)).advanced (passed hop rfl)
  · exact added hop rfl

/-- Groups of animations that end in time drain within the steps of all of them. -/
theorem drains_of_timely {gs : List (Group ℝ μ ι)} (positive : 0 < d) (inhabited : [] ∉ gs)
    (timely : ∀ m ∈ gs.flatten, m.animation.Timely) :
    Drains d gs (gs.flatten.map (·.animation.calls d)).sum := by
  induction gs with
  | nil => exact .nil _
  | cons g gs ih =>
      rw [List.flatten_cons, List.map_append, List.sum_append]
      have among : ∀ m ∈ g, m.animation.calls d ≤ (g.map (·.animation.calls d)).sum :=
        fun m hm => List.single_le_sum (by simp) _ (List.mem_map_of_mem hm)
      refine .cons ?_ (fun m hm => ?_) (ih ?_ fun m hm => timely m ?_)
      · cases g with
        | nil => exact (inhabited List.mem_cons_self).elim
        | cons m ms => exact lt_of_lt_of_le m.animation.calls_pos (among m List.mem_cons_self)
      · have ends := (timely m (List.mem_append_left _ hm)).endsWithin positive
        exact ends.mono (among m hm)
      · exact fun none => inhabited (List.mem_cons_of_mem _ none)
      · exact List.mem_append_right _ hm

/-- The chain drains.  Once nobody is inserted any more and time passes in steps of at
least some length, no animation is left after as many of them as the leaves take, and one
for each parallel and each sequence. -/
theorem run_drains (positive : 0 < d) {before after : List (Operation ℝ μ ι)}
    (timely : ∀ a ∈ Operation.added before, a.Timely)
    (forward : ∀ x ∈ Operation.steps before, 0 ≤ x)
    (closed : Operation.added after = []) (paced : ∀ x ∈ Operation.steps after, d ≤ x)
    (enough : (run before).value.calls d ≤ (Operation.steps after).length) :
    (run (before ++ after)).value.hasAnimations = false := by
  have drains : Drains d (run before).value.chain ((run before).value.calls d) :=
    drains_of_timely positive (tidy_run before).inhabited (timely_run timely forward)
  have nothing := (drains.run closed paced).eq_nil (by omega)
  simp [hasAnimations, members, nothing]

/-- A ramp of one second, and then a zoom to twice the scale. -/
noncomputable def rampThenZoom : Animation ℝ (Ramp ℝ) Nat :=
  .inTurn [
    .leaf 0 (.motion ⟨.single .mapPlane (.ofList [.angle]), true, true, 1, 0, .scalar 0⟩),
    .leaf 1 (.follow ((Follow.empty .standard).withZoom 1 2))]

/-- The zoom to twice the scale, worked out. -/
theorem withZoom_eq :
    (Follow.empty (.standard : Timing ℝ)).withZoom 1 2 =
      ⟨.standard, none, none, some ⟨⟨0, 0.3, 0⟩, 1, 2, 1⟩, .insert .empty .scale, rfl⟩ := by
  have differ : ((1 : ℝ) == 2) = false := by simp
  simp only [Follow.withZoom, differ]
  norm_num [Follow.putZoom, Follow.empty, Tween.zoom, Tween.ofDuration, Clock.start,
    Timing.zoomDuration, Timing.zoomRatio, Timing.speedDuration, Timing.negligible, Timing.standard]

/-- The zoom to twice the scale takes three tenths of a second. -/
theorem duration_zoom :
    ((Follow.empty (.standard : Timing ℝ)).withZoom 1 2).duration = 0.3 := by
  rw [withZoom_eq]
  norm_num [Follow.duration, Tween.duration]

/-- The zoom to twice the scale is over after a second. -/
theorem finished_zoom :
    (((Follow.empty .standard).withZoom 1 2 : Follow ℝ).advance 1).finished = true := by
  have made := (Follow.Made.empty (.standard : Timing ℝ)).withZoom 1 2
  have enough : ((Follow.empty (.standard : Timing ℝ)).withZoom 1 2).duration < [(1 : ℝ)].sum := by
    rw [duration_zoom]
    norm_num
  exact made.finished enough

/-- The ramp and the zoom need two calls and one, and their sequence another one. -/
private theorem calls_rampThenZoom : rampThenZoom.calls 1 = 4 := by
  have short : ⌊(3 / 10 : ℝ)⌋₊ = 0 := Nat.floor_eq_zero.mpr (by norm_num)
  norm_num [rampThenZoom, Animation.inTurn, Leaf.calls, Leaf.duration, Motion.duration,
    duration_zoom, short]

/-- The ramp and the zoom are timely. -/
private theorem timely_rampThenZoom : rampThenZoom.Timely := by
  intro l hl
  simp only [rampThenZoom, Animation.inTurn, Animation.leaves_sequence, List.flatMap_cons,
    Animation.leaves_leaf, List.flatMap_nil, List.append_nil, List.singleton_append,
    List.mem_pair] at hl
  rcases hl with rfl | rfl
  · exact .motion (Ramp.punctual le_rfl)
  · exact .follow ((Follow.Made.empty _).withZoom 1 2)

/-- Two steps of a second for the ramp, one for the zoom and one for the sequence are
enough. -/
theorem run_drains_rampThenZoom :
    (run [.add rampThenZoom false]).value.hasAnimations = true ∧
      (run ([.add rampThenZoom false] ++ List.replicate 4 (.advance 1))).value.hasAnimations =
        false := by
  refine ⟨rfl, run_drains one_pos ?_ (by simp [Operation.steps, Operation.seconds?]) rfl ?_ ?_⟩
  · intro a ha
    obtain rfl : a = rampThenZoom := List.mem_singleton.mp ha
    exact timely_rampThenZoom
  · intro x hx
    have step : x = 1 := by simpa [Operation.steps, Operation.seconds?] using hx
    exact le_of_eq step.symm
  · have all : (run [.add rampThenZoom false]).value.calls 1 = rampThenZoom.calls 1 + 0 := rfl
    rw [all, calls_rampThenZoom]
    exact Nat.le_refl 4

end Scheduler

end CameraMotion
