import CameraMotion.Scheduler.Cache
import Mathlib.Data.List.Induction
import Mathlib.Data.Nat.Find
import Mathlib.Logic.ExistsUnique

/-!
# Journals of kept values

A journal has one entry whenever a value is kept, a channel is read or all kept values
are dropped, in the order in which this happens.  It is honest when every read that claims
to return a kept value does so.  In an honest journal no kept value is lost or returned
twice: what becomes of it is decided by the first later entry that concerns its channel.

Main results:

- Theorem `Journal.find?_after`: what is kept in the end is what was saved last, unless
  something has happened to it since.
- Theorem `Journal.existsUnique_fate`: every saved value has exactly one fate.
- Theorem `Journal.existsUnique_saved`: whatever a read takes from the kept values was
  saved exactly once for it.
-/

namespace CameraMotion

variable {α : Type}

/-- Where the answer to a read comes from. -/
inductive Source where
  /-- An animation of the running group drives the channel. -/
  | shown
  /-- A value was kept for the channel and is used up now. -/
  | kept
  | fallback
deriving DecidableEq, Repr

/-- What can happen to kept values. -/
inductive Entry (α : Type) where
  /-- A value is kept for a channel. -/
  | saved (c : Channel) (v : PropertyValue α)
  /-- A channel is read, and this is the answer. -/
  | read (c : Channel) (source : Source) (v : PropertyValue α)
  /-- All kept values are dropped. -/
  | dropped
deriving DecidableEq, Repr

namespace Entry

/-- The entry decides on its own what is kept for a channel after it. -/
def Concerns (c : Channel) : Entry α → Prop
  | .saved d _ => d = c
  | .read d source _ => source = .kept ∧ d = c
  | .dropped => True

/-- The kept values after an entry. -/
def apply (cache : Cache α) : Entry α → Cache α
  | .saved c v => cache.store c v
  | .read c .kept _ => cache.discard c
  | .read _ _ _ => cache
  | .dropped => .empty

variable {c : Channel} {e : Entry α} {v : PropertyValue α}

/-- An entry that does not concern a channel leaves it alone. -/
theorem find?_apply_of_not_concerns (cache : Cache α) (h : ¬e.Concerns c) :
    (e.apply cache).find? c = cache.find? c := by
  cases e with
  | saved d v => simp [apply, Ne.symm (show d ≠ c from h)]
  | read d source v =>
      cases source with
      | kept => simp [apply, Ne.symm fun same : d = c => h ⟨rfl, same⟩]
      | shown | fallback => rfl
  | dropped => exact (h trivial).elim

/-- After an entry that concerns a channel, a value is kept there exactly when the entry
keeps it. -/
theorem find?_apply_of_concerns (cache : Cache α) (h : e.Concerns c) :
    (e.apply cache).find? c = some v ↔ e = .saved c v := by
  cases e with
  | saved d w =>
      obtain rfl : d = c := h
      simp [apply]
  | read d source w =>
      obtain ⟨rfl, rfl⟩ := h
      simp [apply]
  | dropped => simp [apply]

end Entry

/-- Entries in the order in which they were made. -/
abbrev Journal (α : Type) :=
  List (Entry α)

namespace Journal

variable {J K : Journal α} {c : Channel} {i j : Nat} {e : Entry α} {v : PropertyValue α}

/-- The kept values after all entries. -/
def after (cache : Cache α) (J : Journal α) : Cache α :=
  J.foldl Entry.apply cache

/-- Every read that claims to return a kept value does so. -/
def Honest (cache : Cache α) : Journal α → Prop
  | [] => True
  | e :: J => (∀ c v, e = .read c .kept v → cache.find? c = some v) ∧ Honest (e.apply cache) J

/-- To go through two journals is to go through the first one and then the second. -/
theorem after_append (cache : Cache α) (J K : Journal α) :
    after cache (J ++ K) = after (after cache J) K :=
  List.foldl_append

/-- To go through one entry is to apply it. -/
theorem after_singleton (cache : Cache α) (e : Entry α) : after cache [e] = e.apply cache :=
  rfl

/-- To go through a journal is to apply its first entry first. -/
theorem after_cons (cache : Cache α) (e : Entry α) (J : Journal α) :
    after cache (e :: J) = after (e.apply cache) J :=
  rfl

/-- A longer journal is honest when its parts are, each from where it starts. -/
theorem honest_append {cache : Cache α} :
    Honest cache (J ++ K) ↔ Honest cache J ∧ Honest (after cache J) K := by
  induction J generalizing cache with
  | nil => simp [Honest, after]
  | cons e J ih =>
      have ih := @ih (e.apply cache)
      simp only [List.cons_append, Honest, ih, and_assoc]
      rfl

/-- Entries that only keep values are honest. -/
theorem honest_of_saved (h : ∀ e ∈ J, ∃ c v, e = .saved c v) (cache : Cache α) :
    Honest cache J := by
  induction J generalizing cache with
  | nil => trivial
  | cons e J ih =>
      rcases h e List.mem_cons_self with ⟨c, v, rfl⟩
      exact ⟨fun _ _ same => (nomatch same), ih (fun f hf => h f (List.mem_cons_of_mem _ hf)) _⟩

/-- What a read takes from the kept values was there before it. -/
theorem Honest.find?_take {cache : Cache α} (h : Honest cache J)
    (read : J[j]? = some (.read c .kept v)) : (after cache (J.take j)).find? c = some v := by
  induction J generalizing cache j with
  | nil => simp at read
  | cons e J ih =>
      cases j with
      | zero => exact h.1 c v (by simpa using read)
      | succ j => exact ih h.2 (by simpa using read)

/-! ## The entry that decides -/

/-- The first entry after a place that concerns a channel. -/
def Next (J : Journal α) (c : Channel) (i j : Nat) (e : Entry α) : Prop :=
  i < j ∧ J[j]? = some e ∧ e.Concerns c ∧
    ∀ k f, i < k → k < j → J[k]? = some f → ¬f.Concerns c

/-- There is only one next entry about a channel. -/
theorem Next.unique {j' : Nat} {e' : Entry α} (h : Next J c i j e) (h' : Next J c i j' e') :
    j = j' ∧ e = e' := by
  rcases h with ⟨later, found, concerns, quiet⟩
  rcases h' with ⟨later', found', concerns', quiet'⟩
  have same : j = j' := by
    rcases Nat.lt_trichotomy j j' with before | same | before
    · exact (quiet' j e later before found concerns).elim
    · exact same
    · exact (quiet j' e' later' before found' concerns').elim
  subst same
  exact ⟨rfl, Option.some.inj (found.symm.trans found')⟩

/-- The first entry that concerns a channel is found by looking through the later ones
in order. -/
theorem exists_next (later : i < j) (found : J[j]? = some e) (concerns : e.Concerns c) :
    ∃ j' e', Next J c i j' e' := by
  classical
  have some_entry : ∃ j, i < j ∧ ∃ e, J[j]? = some e ∧ e.Concerns c :=
    ⟨j, later, e, found, concerns⟩
  rcases Nat.find_spec some_entry with ⟨later', e', found', concerns'⟩
  refine ⟨_, e', later', found', concerns', fun k f after before found concerns => ?_⟩
  exact Nat.find_min some_entry before ⟨after, f, found, concerns⟩

/-- The last entry that concerns a channel, and its place. -/
def Decides (J : Journal α) (c : Channel) (i : Nat) (e : Entry α) : Prop :=
  J[i]? = some e ∧ e.Concerns c ∧ ∀ k f, i < k → J[k]? = some f → ¬f.Concerns c

/-- Only one entry decides what is kept for a channel. -/
theorem Decides.unique {i' : Nat} {e' : Entry α} (h : Decides J c i e)
    (h' : Decides J c i' e') : i = i' ∧ e = e' := by
  rcases h with ⟨found, concerns, quiet⟩
  rcases h' with ⟨found', concerns', quiet'⟩
  have same : i = i' := by
    rcases Nat.lt_trichotomy i i' with before | same | before
    · exact (quiet i' e' before found' concerns').elim
    · exact same
    · exact (quiet' i e before found concerns).elim
  subst same
  exact ⟨rfl, Option.some.inj (found.symm.trans found')⟩

/-- An entry of a journal with one more is one of the others, or the last one. -/
theorem getElem?_concat_eq_some_iff {last : Entry α} :
    (J ++ [last])[i]? = some e ↔ J[i]? = some e ∨ i = J.length ∧ last = e := by
  rcases Nat.lt_trichotomy i J.length with before | rfl | beyond
  · simp [List.getElem?_append_left before, Nat.ne_of_lt before]
  · simp
  · have none : (J ++ [last])[i]? = none := by
      rw [List.getElem?_eq_none_iff, List.length_append, List.length_singleton]
      exact beyond
    simp [none, Nat.ne_of_gt beyond, List.getElem?_eq_none (Nat.le_of_lt beyond)]

/-- A further entry decides where it concerns the channel. -/
theorem decides_concat_of_concerns {last : Entry α} (concerns : last.Concerns c) :
    Decides (J ++ [last]) c i e ↔ i = J.length ∧ last = e := by
  have here : (J ++ [last])[J.length]? = some last :=
    getElem?_concat_eq_some_iff.mpr (.inr ⟨rfl, rfl⟩)
  constructor
  · rintro ⟨found, _, quiet⟩
    refine (getElem?_concat_eq_some_iff.mp found).resolve_left fun found => ?_
    have before := (List.getElem?_eq_some_iff.mp found).1
    exact quiet J.length last before here concerns
  · rintro ⟨rfl, rfl⟩
    refine ⟨here, concerns, fun k f later found => ?_⟩
    rcases getElem?_concat_eq_some_iff.mp found with found | ⟨rfl, _⟩
    · exact absurd (List.getElem?_eq_some_iff.mp found).1 (Nat.not_lt_of_gt later)
    · exact absurd later (Nat.lt_irrefl _)

/-- A further entry that does not concern the channel leaves the decision to those
before. -/
theorem decides_concat_of_not_concerns {last : Entry α} (idle : ¬last.Concerns c) :
    Decides (J ++ [last]) c i e ↔ Decides J c i e := by
  constructor
  · rintro ⟨found, concerns, quiet⟩
    rcases getElem?_concat_eq_some_iff.mp found with found | ⟨_, rfl⟩
    · refine ⟨found, concerns, fun k f later found => quiet k f later ?_⟩
      exact getElem?_concat_eq_some_iff.mpr (.inl found)
    · exact (idle concerns).elim
  · rintro ⟨found, concerns, quiet⟩
    refine ⟨getElem?_concat_eq_some_iff.mpr (.inl found), concerns, fun k f later found => ?_⟩
    rcases getElem?_concat_eq_some_iff.mp found with found | ⟨_, rfl⟩
    · exact quiet k f later found
    · exact idle

/-- An entry is the next one after another that concerns the channel, exactly when the
other one decided until then. -/
theorem decides_take_iff (found : J[j]? = some e) (concerns : e.Concerns c) {f : Entry α} :
    Decides (J.take j) c i f ↔ J[i]? = some f ∧ f.Concerns c ∧ Next J c i j e := by
  constructor
  · rintro ⟨there, mine, quiet⟩
    rw [List.getElem?_take] at there
    split_ifs at there with before
    refine ⟨there, mine, before, found, concerns, fun k f later earlier there => ?_⟩
    exact quiet k f later (by rw [List.getElem?_take, if_pos earlier, there])
  · rintro ⟨there, mine, before, _, _, quiet⟩
    refine ⟨by rw [List.getElem?_take, if_pos before, there], mine, fun k f later there => ?_⟩
    rw [List.getElem?_take] at there
    split_ifs at there with earlier
    exact quiet k f later earlier there

/-- What is kept in the end is what was saved last, unless something has happened to it
since. -/
theorem find?_after : (after .empty J).find? c = some v ↔ ∃ i, Decides J c i (.saved c v) := by
  induction J using List.reverseRecOn with
  | nil => simp [after, Decides]
  | append_singleton J last ih =>
      rw [after_append, after_singleton]
      by_cases concerns : last.Concerns c
      · rw [Entry.find?_apply_of_concerns _ concerns]
        simp [decides_concat_of_concerns concerns]
      · rw [Entry.find?_apply_of_not_concerns _ concerns, ih]
        simp [decides_concat_of_not_concerns concerns]

/-! ## Fates -/

/-- What can become of a value once it is kept. -/
inductive Fate where
  /-- It is still there. -/
  | kept
  /-- It gave way to another one at a place of the journal. -/
  | replaced (j : Nat)
  /-- It was dropped with all others at a place of the journal. -/
  | dropped (j : Nat)
  /-- It was returned by the read at a place of the journal. -/
  | returned (j : Nat)
deriving DecidableEq, Repr

/-- What becomes of a value that was kept for a channel at a place of the journal. -/
inductive Meets (J : Journal α) (c : Channel) (v : PropertyValue α) (i : Nat) : Fate → Prop where
  | kept (quiet : ∀ k f, i < k → J[k]? = some f → ¬f.Concerns c) : Meets J c v i .kept
  | replaced {j : Nat} {w : PropertyValue α} (next : Next J c i j (.saved c w)) :
      Meets J c v i (.replaced j)
  | dropped {j : Nat} (next : Next J c i j .dropped) : Meets J c v i (.dropped j)
  | returned {j : Nat} (next : Next J c i j (.read c .kept v)) : Meets J c v i (.returned j)

/-- The fate of a value, when an entry decides it. -/
private def fateBy (j : Nat) : Entry α → Fate
  | .saved _ _ => .replaced j
  | .read _ _ _ => .returned j
  | .dropped => .dropped j

/-- What a saved value meets is what the next entry about its channel says, and nothing when
there is none. -/
private theorem Meets.quiet_or_next {fate : Fate} (h : Meets J c v i fate) :
    (fate = .kept ∧ ∀ k f, i < k → J[k]? = some f → ¬f.Concerns c) ∨
      ∃ j e, Next J c i j e ∧ fate = fateBy j e := by
  cases h with
  | kept quiet => exact .inl ⟨rfl, quiet⟩
  | replaced next | dropped next | returned next => exact .inr ⟨_, _, next, rfl⟩

/-- A saved value meets one fate only. -/
theorem Meets.unique {fate fate' : Fate} (h : Meets J c v i fate) (h' : Meets J c v i fate') :
    fate = fate' := by
  rcases h.quiet_or_next with ⟨rfl, quiet⟩ | ⟨j, e, next, rfl⟩ <;>
    rcases h'.quiet_or_next with ⟨rfl, quiet'⟩ | ⟨j', e', next', rfl⟩
  · rfl
  · exact (quiet j' e' next'.1 next'.2.1 next'.2.2.1).elim
  · exact (quiet' j e next.1 next.2.1 next.2.2.1).elim
  · rcases next.unique next' with ⟨rfl, rfl⟩
    rfl

/-- A value is kept in the end exactly when it was saved and this is its fate. -/
theorem find?_after_iff_meets :
    (after .empty J).find? c = some v ↔
      ∃ i, J[i]? = some (.saved c v) ∧ Meets J c v i .kept := by
  rw [find?_after]
  refine exists_congr fun i => ⟨?_, ?_⟩
  · rintro ⟨found, _, quiet⟩
    exact ⟨found, .kept quiet⟩
  · rintro ⟨found, ⟨quiet⟩⟩
    exact ⟨found, rfl, quiet⟩

/-- In an honest journal a read that uses up a value returns it. -/
theorem Honest.eq_of_next (h : Honest .empty J) {w : PropertyValue α}
    (saved : J[i]? = some (.saved c v)) (next : Next J c i j (.read c .kept w)) : w = v := by
  have read := next.2.1
  have mine : Decides (J.take j) c i (.saved c v) :=
    (decides_take_iff read next.2.2.1).mpr ⟨saved, rfl, next⟩
  rcases find?_after.mp (h.find?_take read) with ⟨i', others⟩
  have same := (others.unique mine).2
  injection same

/-- Every saved value has exactly one fate. -/
theorem Honest.existsUnique_fate (h : Honest .empty J) (saved : J[i]? = some (.saved c v)) :
    ∃! fate, Meets J c v i fate := by
  have meets : ∃ fate, Meets J c v i fate := by
    by_cases later : ∃ j e, i < j ∧ J[j]? = some e ∧ e.Concerns c
    · rcases later with ⟨j, e, later, found, concerns⟩
      rcases exists_next later found concerns with ⟨j, e, next⟩
      have concerns := next.2.2.1
      cases e with
      | saved d w =>
          obtain rfl : d = c := concerns
          exact ⟨_, .replaced next⟩
      | read d source w =>
          obtain ⟨rfl, rfl⟩ := concerns
          obtain rfl := h.eq_of_next saved next
          exact ⟨_, .returned next⟩
      | dropped => exact ⟨_, .dropped next⟩
    · exact ⟨_, .kept fun k f after found concerns => later ⟨k, f, after, found, concerns⟩⟩
  rcases meets with ⟨fate, meets⟩
  exact ⟨fate, meets, fun _ other => other.unique meets⟩

/-- Whatever a read takes from the kept values was saved for it, exactly once. -/
theorem Honest.existsUnique_saved (h : Honest .empty J)
    (read : J[j]? = some (.read c .kept v)) :
    ∃! i, J[i]? = some (.saved c v) ∧ Meets J c v i (.returned j) := by
  have decides {i : Nat} : Decides (J.take j) c i (.saved c v) ↔
      J[i]? = some (.saved c v) ∧ (Entry.saved c v).Concerns c ∧ Next J c i j (.read c .kept v) :=
    decides_take_iff read ⟨rfl, rfl⟩
  rcases find?_after.mp (h.find?_take read) with ⟨i, mine⟩
  rcases decides.mp mine with ⟨saved, _, next⟩
  refine ⟨i, ⟨saved, .returned next⟩, ?_⟩
  rintro i' ⟨saved', meets⟩
  rcases meets with _ | _ | _ | next'
  exact ((decides.mpr ⟨saved', rfl, next'⟩).unique mine).1

end Journal

end CameraMotion
