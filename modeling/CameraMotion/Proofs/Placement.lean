import CameraMotion.Proofs.Keeping
import CameraMotion.Proofs.Members

/-!
# First fit

An insertion first makes room for the new animation and then puts it there.  A group
yields to it when force is used and every member that conflicts may be interrupted,
or when nobody conflicts.  The animation is put into the first group that yields, or
into a group of its own behind all of them.  Who goes on the way conflicts and
may be interrupted, and is not found behind that place.

Main results:

- Theorem `Scheduler.place_eq`: room is made before the new member is told of its
  start.
- Theorem `Scheduler.map_stay_eq`: the groups in which room was made are the groups
  without those who go.
- Theorem `Scheduler.gone_add`: who goes in an insertion.
- Theorem `Scheduler.run_add_placed`: where an insertion after any run puts the new
  animation, and what becomes of the others.
-/

namespace CameraMotion

variable {α μ ι : Type} [Motion α μ]

/-- Every member that cannot share the group with a candidate can be removed. -/
def Group.Yields (candidate : Animation α μ ι) (force : Bool) (g : Group α μ ι) : Prop :=
  ∀ m ∈ g, (m.animation.canShareGroup candidate).value = false →
    force = true ∧ m.animation.interruptible = true

/-- A group yields when none of its members refuses. -/
theorem Group.yields_iff {candidate : Animation α μ ι} {force : Bool} {g : Group α μ ι} :
    g.Yields candidate force ↔ g.refuses candidate force = false := by
  rw [Group.refuses, List.any_eq_false]
  refine forall₂_congr fun m _ => ?_
  cases fits : (m.animation.canShareGroup candidate).value <;>
    simp [Member.refuses, Member.fits, fits]

/-- A part of a list without repetitions consists of those who pass a test that
tells its elements from the others. -/
theorem eq_filter_of_sublist {β : Type} {p : β → Bool} {xs ys : List β} (sub : xs.Sublist ys)
    (distinct : ys.Nodup) (h : ∀ x ∈ ys, p x = true ↔ x ∈ xs) : xs = ys.filter p := by
  induction sub with
  | slnil => rfl
  | @cons xs ys y sub ih =>
      rw [List.nodup_cons] at distinct
      have outside : ¬p y = true := by
        rw [h y (by simp)]
        exact fun hy => distinct.1 (sub.subset hy)
      rw [List.filter_cons_of_neg outside]
      exact ih distinct.2 fun x hx => h x (List.mem_cons_of_mem _ hx)
  | @cons_cons xs ys y sub ih =>
      rw [List.nodup_cons] at distinct
      rw [List.filter_cons_of_pos ((h y (by simp)).mpr (by simp))]
      refine congrArg _ (ih distinct.2 fun x hx => ?_)
      have other : x ≠ y := fun same => distinct.1 (same ▸ hx)
      simpa [other] using h x (List.mem_cons_of_mem _ hx)

namespace Scheduler

/-! ## Making room -/

/-- Put a member at the end of the group at a place, or in a group of its own behind
all groups. -/
def seat (new : Member α μ ι) : (place : Nat) → List (Group α μ ι) → List (Group α μ ι)
  | _, [] => [[new]]
  | 0, g :: gs => (g ++ [new]) :: gs
  | place + 1, g :: gs => g :: seat new place gs

omit [Motion α μ] in
/-- The groups behind a seat stay as they are. -/
theorem drop_seat (new : Member α μ ι) {i : Nat} {gs : List (Group α μ ι)} (h : i ≤ gs.length) :
    (seat new i gs).drop (i + 1) = gs.drop (i + 1) := by
  induction gs generalizing i with
  | nil => simp [seat]
  | cons g gs ih =>
      cases i with
      | zero => rfl
      | succ i => simpa [seat] using ih (by simpa using h)

omit [Motion α μ] in
/-- Who sits in the groups after a seat is taken sat there before, or is the new one. -/
theorem mem_flatten_seat {new m : Member α μ ι} {i : Nat} {gs : List (Group α μ ι)} :
    m ∈ (seat new i gs).flatten ↔ m ∈ gs.flatten ∨ m = new := by
  induction gs generalizing i with
  | nil => simp [seat]
  | cons g gs ih =>
      cases i with
      | zero =>
          simp only [seat, List.flatten_cons, List.mem_append, List.mem_singleton]
          exact or_right_comm
      | succ i =>
          simp only [seat, List.flatten_cons, List.mem_append, ih]
          exact or_assoc.symm

variable [Scalar α]

/-- Make room for an animation in the first of some groups that takes it. -/
def makeRoom (candidate : Animation α μ ι) (force : Bool) :
    List (Group α μ ι) → Cache α → Watched α μ ι (List (Group α μ ι) × Cache α)
  | [], cache => pure ([], cache)
  | g :: gs, cache => do
      let scanned ← scan candidate force g cache
      if scanned.accepted then
        pure (scanned.kept :: gs, scanned.cache)
      else
        let (rest, cache) ← makeRoom candidate force gs scanned.cache
        pure (scanned.kept :: rest, cache)

/-- The groups that refuse and the first one that does not are left with those whom a
scan keeps. -/
theorem value_makeRoom (candidate : Animation α μ ι) (force : Bool)
    (chain : List (Group α μ ι)) (cache : Cache α) :
    (makeRoom candidate force chain cache).value =
      ((chain.takeWhile (·.refuses candidate force)).map (·.kept candidate force) ++
          (chain.dropWhile (·.refuses candidate force)).modifyHead (·.kept candidate force),
        keepAll cache (evictions candidate force chain)) := by
  induction chain generalizing cache with
  | nil => rfl
  | cons g gs ih =>
      cases refused : g.refuses candidate force <;>
        simp [makeRoom, value_scan, refused, ih, evictions, scanned]

/-- Those who are removed are told of the interruption. -/
theorem moments_makeRoom (candidate : Animation α μ ι) (force : Bool)
    (chain : List (Group α μ ι)) (cache : Cache α) :
    (makeRoom candidate force chain cache).moments =
      (evictions candidate force chain).flatMap
        fun m => (m.animation.tell .interrupt).moments := by
  induction chain generalizing cache with
  | nil => simp [makeRoom, evictions, scanned]
  | cons g gs ih =>
      cases refused : g.refuses candidate force <;>
        simp [makeRoom, value_scan, moments_scan, refused, ih, evictions, scanned]

/-- Room is made before the new member is told of its start and put there. -/
theorem place_eq (new : Member α μ ι) (force : Bool) (chain : List (Group α μ ι))
    (cache : Cache α) :
    place new force chain cache = (do
      let (room, cache) ← makeRoom new.animation force chain cache
      new.animation.tell .start
      pure (seat new (chain.takeWhile (·.refuses new.animation force)).length room, cache)) := by
  induction chain generalizing cache with
  | nil => rfl
  | cons g gs ih =>
      cases refused : g.refuses new.animation force with
      | false =>
          ext1 <;> simp [place, makeRoom, value_scan, refused, seat]
      | true =>
          ext1 <;> simp [place, makeRoom, value_scan, refused, seat, ih]

/-! ## Who goes -/

/-- Who of some members is no longer there in a later state. -/
def gone (later : Scheduler α μ ι) (ms : Group α μ ι) : Group α μ ι :=
  ms.filter (!later.isRunning ·.id)

/-- An insertion makes room, tells the new animation of its start, and puts it into the
first group that does not refuse it. -/
theorem add_eq (s : Scheduler α μ ι) (a : Animation α μ ι) (force : Bool) :
    s.add a force = (do
      let (room, cache) ← makeRoom a force s.chain s.cache
      a.tell .start
      let place := (s.chain.takeWhile (·.refuses a force)).length
      pure ⟨seat ⟨s.nextId, a⟩ place room, cache, s.nextId + 1⟩) := by
  rw [add, place_eq]
  ext1 <;> simp

/-- The groups in which room is made for an animation. -/
def room (s : Scheduler α μ ι) (a : Animation α μ ι) (force : Bool) : List (Group α μ ι) :=
  (makeRoom a force s.chain s.cache).value.1

/-- The chain, in two parts: the groups that refuse an animation, and those from the
first one on that does not. -/
theorem exists_split (s : Scheduler α μ ι) (a : Animation α μ ι) (force : Bool) :
    ∃ refused waiting : List (Group α μ ι),
      s.chain = refused ++ waiting ∧ refused = s.chain.takeWhile (·.refuses a force) ∧
        (∀ g ∈ waiting.head?, g.refuses a force = false) ∧
        scanned a force s.chain = refused ++ waiting.take 1 ∧
        s.room a force = refused.map (·.kept a force) ++ waiting.modifyHead (·.kept a force) := by
  refine ⟨_, _, List.takeWhile_append_dropWhile.symm, rfl, fun g hg => ?_, rfl, ?_⟩
  · have first := List.head?_dropWhile_not (·.refuses a force) s.chain
    rw [Option.mem_def.mp hg] at first
    exact first
  · rw [room, value_makeRoom]

/-- Whoever is left after room was made is still there after the insertion. -/
theorem isRunning_of_mem_room {s : Scheduler α μ ι} {a : Animation α μ ι} {force : Bool}
    {m : Member α μ ι} (hm : m ∈ (s.room a force).flatten) :
    (s.add a force).value.isRunning m.id = true := by
  refine isRunning_iff.mpr ⟨m, ?_, rfl⟩
  rw [members, add_eq]
  exact mem_flatten_seat.mpr (.inl hm)

section Insertion

variable {s : Scheduler α μ ι} (h : Tidy s) (a : Animation α μ ι) (force : Bool)

include h

/-- A member goes in an insertion exactly when it is removed. -/
theorem isRunning_add_eq_false {m : Member α μ ι} (hm : m ∈ s.members) :
    (s.add a force).value.isRunning m.id = false ↔ m ∈ evictions a force s.chain := by
  have there : s.isRunning m.id = true := isRunning_iff.mpr ⟨m, hm, rfl⟩
  have removed := (evictions_sublist a force s.chain).subset
  rw [← Bool.not_eq_true, isRunning_add h (h.given m hm), not_and, not_not]
  constructor
  · intro gone
    rcases List.mem_map.mp (gone there) with ⟨n, hn, same⟩
    rwa [List.inj_on_of_nodup_map h.ids hm (removed hn) same.symm]
  · exact fun gone _ => List.mem_map_of_mem gone

/-- Who goes in an insertion is removed to make room. -/
theorem gone_add : (s.add a force).value.gone s.members = evictions a force s.chain := by
  have distinct : s.members.Nodup := .of_map _ h.ids
  refine (eq_filter_of_sublist (evictions_sublist a force s.chain) distinct ?_).symm
  intro m hm
  rw [Bool.not_eq_true', isRunning_add_eq_false h a force hm]

/-- When room is made in a group and everybody else there is removed, those who stay
are those for whom there is room. -/
theorem filter_stay {g g' : Group α μ ι} (hg : g ∈ s.chain) (hg' : g' ∈ s.room a force)
    (sub : g'.Sublist g) (gone : ∀ m ∈ g, m ∉ g' → m ∈ evictions a force s.chain) :
    g.filter ((s.add a force).value.isRunning ·.id) = g' := by
  have distinct : g.Nodup := (List.nodup_flatten.mp (.of_map _ h.ids)).1 g hg
  refine (eq_filter_of_sublist sub distinct fun m hm => ?_).symm
  constructor
  · intro stays
    by_contra outside
    have there : m ∈ s.members := List.mem_flatten.mpr ⟨g, hg, hm⟩
    rw [(isRunning_add_eq_false h a force there).mpr (gone m hm outside)] at stays
    exact Bool.false_ne_true stays
  · exact fun hm => isRunning_of_mem_room (List.mem_flatten.mpr ⟨g', hg', hm⟩)

/-- The groups in which room was made are the groups without those who go. -/
theorem map_stay_eq :
    s.chain.map (·.filter ((s.add a force).value.isRunning ·.id)) = s.room a force := by
  rcases exists_split s a force with ⟨refused, waiting, whole, _, _, asked, room⟩
  have scan : ∀ g ∈ refused ++ waiting.take 1, g ∈ s.chain → g.kept a force ∈ s.room a force →
      g.filter ((s.add a force).value.isRunning ·.id) = g.kept a force := by
    intro g hg there seated
    refine filter_stay h a force there seated (g.kept_sublist a force) fun m hm outside => ?_
    have split := (g.evicted_append_kept_perm a force).symm.subset hm
    have removed := (List.mem_append.mp split).resolve_right outside
    exact List.mem_flatMap.mpr ⟨g, asked ▸ hg, removed⟩
  rw [whole, List.map_append, room]
  congr 1
  · refine List.map_congr_left fun g hg => scan g (List.mem_append_left _ hg) ?_ ?_
    · exact whole ▸ List.mem_append_left _ hg
    · exact room ▸ List.mem_append_left _ (List.mem_map_of_mem hg)
  · cases waiting with
    | nil => rfl
    | cons g gs =>
        rw [List.map_cons, List.modifyHead_cons,
          scan g (by simp) (by simp [whole]) (by simp [room])]
        have waits : ∀ g' ∈ gs, g' ∈ s.room a force := by
          intro g' hg'
          rw [room]
          exact List.mem_append_right _ (List.mem_cons_of_mem _ hg')
        refine congrArg _ (.trans (List.map_congr_left fun g' hg' => ?_) (List.map_id' gs))
        refine List.filter_eq_self.mpr fun m hm => ?_
        exact isRunning_of_mem_room (List.mem_flatten.mpr ⟨g', waits g' hg', hm⟩)

/-- Who stays in a group that takes the new animation fits. -/
theorem fits_of_isRunning {g : Group α μ ι} (hg : g ∈ scanned a force s.chain)
    (takes : g.refuses a force = false) {m : Member α μ ι} (hm : m ∈ g)
    (running : (s.add a force).value.isRunning m.id = true) : m.fits a = true := by
  by_contra conflicts
  have removed : m ∈ evictions a force s.chain := by
    refine List.mem_flatMap.mpr ⟨g, hg, ?_⟩
    rw [Group.evicted_of_not_refuses takes]
    exact List.mem_filter.mpr ⟨hm, by simpa using conflicts⟩
  have there : m ∈ s.members := (evictions_sublist a force s.chain).subset removed
  rw [(isRunning_add_eq_false h a force there).mpr removed] at running
  exact Bool.false_ne_true running

end Insertion

/-! ## The rule -/

/-- An insertion puts the new animation at a place in the chain, and this is all that
it does to the others. -/
structure Placed (s : Scheduler α μ ι) (a : Animation α μ ι) (force : Bool) (i : Nat) :
    Prop where
  /-- No group before the place yields. -/
  refused : ∀ g ∈ s.chain.take i, ¬g.Yields a force
  /-- The group at the place yields, unless the place is behind all groups. -/
  yields : i = s.chain.length ∨ ∃ g, s.chain[i]? = some g ∧ g.Yields a force
  /-- First room is made; then the animation is told of its start and put there. -/
  order : s.add a force = (do
    let (room, cache) ← makeRoom a force s.chain s.cache
    a.tell .start
    pure ⟨seat ⟨s.nextId, a⟩ i room, cache, s.nextId + 1⟩)
  /-- Room is made by taking out those who go.  Everybody else stays in his group,
  in the same order. -/
  room : (makeRoom a force s.chain s.cache).value.1 =
    s.chain.map (·.filter ((s.add a force).value.isRunning ·.id))
  /-- While room is made, what those who go leave behind is kept, one after the
  other. -/
  saved : ∀ c, (makeRoom a force s.chain s.cache).value.2.find? c =
    (Group.bequest c ((s.add a force).value.gone s.members)).or (s.cache.find? c)
  /-- While room is made, those who go are told of the interruption, and nobody is
  told of anything else. -/
  told : (makeRoom a force s.chain s.cache).moments =
    ((s.add a force).value.gone s.members).flatMap fun m => (m.animation.tell .interrupt).moments
  /-- Nobody goes twice. -/
  distinct : (((s.add a force).value.gone s.members).map (·.id)).Nodup
  /-- Who goes conflicts, gives way to force, and is not found behind the place. -/
  conflict : ∀ m ∈ (s.add a force).value.gone s.members,
    (m.animation.canShareGroup a).value = false ∧ m.animation.interruptible = true ∧
      force = true ∧ ∃ g ∈ s.chain.take (i + 1), m ∈ g
  /-- Who stays in the group at the place can share it with the animation. -/
  share : ∀ g, s.chain[i]? = some g → ∀ m ∈ g, (s.add a force).value.isRunning m.id = true →
    (m.animation.canShareGroup a).value = true
  /-- The groups behind the place are left as they were. -/
  untouched : (s.add a force).value.chain.drop (i + 1) = s.chain.drop (i + 1)
  /-- Without force nobody goes, and what was kept stays as it was. -/
  gentle : force = false →
    (s.add a force).value.gone s.members = [] ∧ (s.add a force).value.cache = s.cache

/-- An insertion puts the new animation into the first group that yields, or behind
all groups. -/
theorem placed_of_tidy {s : Scheduler α μ ι} (h : Tidy s) (a : Animation α μ ι) (force : Bool) :
    Placed s a force (s.chain.takeWhile (·.refuses a force)).length := by
  rcases exists_split s a force with ⟨refused, waiting, whole, refusedEq, takes, asked, room⟩
  rw [← refusedEq]
  have stays := map_stay_eq h a force
  have gone := gone_add h a force
  have asked' : s.chain.take (refused.length + 1) = refused ++ waiting.take 1 := by
    rw [whole, List.take_length_add_append]
  constructor
  · intro g hg
    rw [whole, List.take_left] at hg
    rw [Group.yields_iff, Bool.not_eq_false]
    exact List.mem_takeWhile_imp (refusedEq ▸ hg)
  · cases waiting with
    | nil => exact .inl (by simp [whole])
    | cons g gs => exact .inr ⟨g, by simp [whole], Group.yields_iff.mpr (takes g rfl)⟩
  · rw [refusedEq]
    exact add_eq s a force
  · exact stays.symm
  · intro c
    rw [gone, value_makeRoom, find?_keepAll]
  · rw [gone, moments_makeRoom]
  · rw [gone]
    exact h.ids.sublist ((evictions_sublist a force s.chain).map _)
  · intro m hm
    rw [gone] at hm
    rcases forced_of_mem_evictions hm with ⟨forced, removable⟩
    rcases List.mem_flatMap.mp hm with ⟨g, hg, hm⟩
    rw [asked, ← asked'] at hg
    exact ⟨(Bool.not_eq_true' _).mp (List.mem_filter.mp hm).2, removable, forced, g, hg,
      (g.evicted_sublist a force).subset hm⟩
  · intro g hg m hm running
    have here : waiting.head? = some g := by
      rwa [whole, List.getElem?_append_right le_rfl, Nat.sub_self, ← List.head?_eq_getElem?] at hg
    have scan : g ∈ scanned a force s.chain := by
      rw [asked, List.take_one, here]
      exact List.mem_append_right _ (by simp)
    exact fits_of_isRunning h a force scan (takes g here) hm running
  · have seated : (s.add a force).value.chain =
        seat ⟨s.nextId, a⟩ refused.length (s.room a force) := by
      rw [add_eq, refusedEq]
      rfl
    rw [seated, drop_seat _ (by simp [room]), room, whole]
    simp [List.drop_append, List.drop_one, List.drop_eq_nil_of_le]
  · rintro rfl
    have nobody : evictions a false s.chain = [] := by
      refine List.eq_nil_iff_forall_not_mem.mpr fun m hm => ?_
      exact Bool.false_ne_true (forced_of_mem_evictions hm).1
    exact ⟨gone.trans nobody, by rw [cache_add, nobody, keepAll_nil]⟩

/-- After every run, an insertion puts the new animation into the first group that
yields, or behind all groups. -/
theorem run_add_placed (ops : List (Operation α μ ι)) (a : Animation α μ ι) (force : Bool) :
    ∃ i, Placed (run ops).value a force i :=
  ⟨_, placed_of_tidy (tidy_run ops) a force⟩

end Scheduler

end CameraMotion
