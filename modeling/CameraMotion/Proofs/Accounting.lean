import CameraMotion.Proofs.Journal
import CameraMotion.Proofs.Keeping
import CameraMotion.Proofs.Run

/-!
# Accounting for kept values

Every run of the scheduler has a journal: of the values that are kept because somebody is
over, was interrupted or was handed in to be kept, of the reads with their answers, and of
the times when everything was dropped.  The journal is honest and accounts for the kept
values after the run.  So every value that was ever kept is still there, has given way to
a later one, was dropped, or was returned by one read.

Main results:

- Theorem `Scheduler.after_entries`: the entries of an operation account for what it does
  to the kept values.
- Theorem `Scheduler.honest_entries`: the entries of an operation are honest.
- Theorem `Scheduler.run_accounts`: what becomes of kept values over a run, and what a
  read does after it.
-/

namespace CameraMotion

variable {α μ ι : Type}

/-- The channels that are read to work out the visible part of the map plane, and the
viewport's own values for them. -/
def Viewport.requests (v : Viewport α) : List (Channel × PropertyValue α) :=
  [(⟨.mapPlane, .scale⟩, .scalar v.scale), (⟨.mapPlane, .angle⟩, .scalar v.angle),
    (⟨.mapPlane, .position⟩, .point v.focus)]

variable [Scalar α] [Motion α μ]

/-- The values that an animation leaves behind, one entry for each. -/
def Animation.savings (a : Animation α μ ι) : Journal α :=
  a.snapshot.value.map fun entry => .saved entry.1 entry.2

namespace Scheduler

/-! ## The journal of a run -/

/-- Where the answer comes from when a channel is read. -/
def source (s : Scheduler α μ ι) (c : Channel) : Source :=
  if (s.shows c).isSome then .shown
  else if (s.cache.find? c).isSome then .kept
  else .fallback

/-- The entries of some reads, one after the other. -/
def readEntries (s : Scheduler α μ ι) : List (Channel × PropertyValue α) → Journal α
  | [] => []
  | (c, fallback) :: requests =>
      let (value, rest) := (s.read c fallback).value
      .read c (s.source c) value :: rest.readEntries requests

/-- The entries of an operation. -/
def entries (s : Scheduler α μ ι) : Operation α μ ι → Journal α
  | .add a force => (evictions a force s.chain).flatMap (·.animation.savings)
  | .advance seconds => (Group.leavers seconds s.head).flatMap (·.animation.savings)
  | .read c fallback => s.readEntries [(c, fallback)]
  | .rect v => s.readEntries v.requests
  | .save a => a.savings
  | .clear => [.dropped]

/-- The entries of several operations, one after the other. -/
def journalFrom (s : Scheduler α μ ι) : List (Operation α μ ι) → Journal α
  | [] => []
  | op :: ops => s.entries op ++ (s.step op).value.journalFrom ops

/-- The journal of a run from the beginning. -/
def journal (ops : List (Operation α μ ι)) : Journal α :=
  journalFrom .empty ops

/-- The journal of a longer run goes on from where the shorter one ends. -/
theorem journalFrom_append (s : Scheduler α μ ι) (before after : List (Operation α μ ι)) :
    s.journalFrom (before ++ after) =
      s.journalFrom before ++ (s.runFrom before).value.journalFrom after := by
  induction before generalizing s with
  | nil => rfl
  | cons op ops ih => simp [journalFrom, runFrom, ih]

/-- An operation more adds its entries to the journal. -/
theorem journal_concat (ops : List (Operation α μ ι)) (op : Operation α μ ι) :
    journal (ops ++ [op]) = journal ops ++ (run ops).value.entries op := by
  simp [journal, journalFrom_append, journalFrom, run]

end Scheduler

/-! ## Values that are kept -/

/-- Whatever an animation saves is an entry of a saved value. -/
theorem Animation.exists_of_mem_savings {a : Animation α μ ι} {e : Entry α}
    (h : e ∈ a.savings) : ∃ c v, e = .saved c v := by
  rcases List.mem_map.mp h with ⟨entry, _, rfl⟩
  exact ⟨_, _, rfl⟩

/-- To go through what an animation saves is to keep its values. -/
theorem Animation.after_savings (cache : Cache α) (a : Animation α μ ι) :
    a.savings.after cache = (Scheduler.keep cache a).value := by
  rw [savings, Journal.after, List.foldl_map]
  rfl

/-- To go through what several members save is to keep the values of all of them. -/
theorem Scheduler.after_savings (cache : Cache α) (ms : Group α μ ι) :
    Journal.after cache (ms.flatMap (·.animation.savings)) = keepAll cache ms := by
  induction ms generalizing cache with
  | nil => rfl
  | cons m ms ih =>
      rw [List.flatMap_cons, Journal.after_append, Animation.after_savings, ih, keepAll_cons]

/-- What members save claims nothing about the values that were kept before. -/
theorem Scheduler.honest_savings (cache : Cache α) (ms : Group α μ ι) :
    Journal.Honest cache (ms.flatMap (·.animation.savings)) := by
  refine Journal.honest_of_saved (fun e he => ?_) cache
  rcases List.mem_flatMap.mp he with ⟨m, _, he⟩
  exact Animation.exists_of_mem_savings he

namespace Scheduler

/-! ## Reads -/

/-- A read where the running group drives the channel finds its value there and changes
nothing. -/
theorem read_of_shows {s : Scheduler α μ ι} {c : Channel} {v : PropertyValue α}
    (h : s.shows c = some v) (fallback : PropertyValue α) :
    (s.read c fallback).value = (v, s) := by
  rcases Option.map_eq_some_iff.mp h with ⟨m, found, rfl⟩
  simp [read, found]

/-- A read where nobody in the running group drives the channel uses up what is kept. -/
theorem read_of_shows_eq_none {s : Scheduler α μ ι} {c : Channel} (h : s.shows c = none)
    (fallback : PropertyValue α) :
    (s.read c fallback).value =
      ((s.cache.find? c).getD fallback, { s with cache := s.cache.discard c }) := by
  have found := Option.map_eq_none_iff.mp h
  simp [read, found]

/-- What a read does to the kept values is what its entry says. -/
theorem apply_read (s : Scheduler α μ ι) (c : Channel) (fallback value : PropertyValue α) :
    (Entry.read c (s.source c) value).apply s.cache = (s.read c fallback).value.2.cache := by
  cases shown : s.shows c with
  | some v => simp [source, shown, read_of_shows shown, Entry.apply]
  | none =>
      rw [read_of_shows_eq_none shown]
      cases kept : s.cache.find? c with
      | some v => simp [source, shown, kept, Entry.apply]
      | none =>
          have nothing : s.cache.discard c = s.cache := by
            refine Cache.ext_find? fun d => ?_
            by_cases same : d = c
            · simp [same, kept]
            · simp [same]
          simp [source, shown, kept, Entry.apply, nothing]

/-- A read that claims to return a kept value does so. -/
theorem find?_of_source {s : Scheduler α μ ι} {c : Channel} (h : s.source c = .kept)
    (fallback : PropertyValue α) :
    s.cache.find? c = some (s.read c fallback).value.1 := by
  cases shown : s.shows c with
  | some v => simp [source, shown] at h
  | none =>
      cases kept : s.cache.find? c with
      | some v => simp [read_of_shows_eq_none shown, kept]
      | none => simp [source, shown, kept] at h

/-- What is left of the scheduler after some reads, one after the other. -/
def readAll (s : Scheduler α μ ι) (requests : List (Channel × PropertyValue α)) :
    Scheduler α μ ι :=
  requests.foldl (fun s r => (s.read r.1 r.2).value.2) s

/-- To go through the entries of some reads is to make the reads. -/
theorem after_readEntries (s : Scheduler α μ ι) (requests : List (Channel × PropertyValue α)) :
    (s.readEntries requests).after s.cache = (s.readAll requests).cache := by
  induction requests generalizing s with
  | nil => rfl
  | cons r requests ih =>
      rw [readEntries, Journal.after_cons, s.apply_read r.1 r.2]
      exact ih _

/-- Each of several reads notes the value that is kept when its turn comes. -/
theorem honest_readEntries (s : Scheduler α μ ι) (requests : List (Channel × PropertyValue α)) :
    (s.readEntries requests).Honest s.cache := by
  induction requests generalizing s with
  | nil => trivial
  | cons r requests ih =>
      refine ⟨fun c v same => ?_, ?_⟩
      · injection same with channel source value
        subst channel value
        exact find?_of_source source r.2
      · rw [s.apply_read r.1 r.2]
        exact ih _

/-! ## Operations and runs -/

/-- The entries of an operation account for what it does to the kept values. -/
theorem after_entries (s : Scheduler α μ ι) (op : Operation α μ ι) :
    (s.entries op).after s.cache = (s.step op).value.cache := by
  cases op with
  | add a force => exact (after_savings _ _).trans (cache_add s a force).symm
  | advance seconds => exact (after_savings _ _).trans (cache_advance s seconds).symm
  | read c fallback => exact s.after_readEntries [(c, fallback)]
  | rect v => exact s.after_readEntries v.requests
  | save a => exact a.after_savings s.cache
  | clear => rfl

/-- The entries of an operation are honest. -/
theorem honest_entries (s : Scheduler α μ ι) (op : Operation α μ ι) :
    (s.entries op).Honest s.cache := by
  cases op with
  | add a force => exact honest_savings _ _
  | advance seconds => exact honest_savings _ _
  | read c fallback => exact s.honest_readEntries [(c, fallback)]
  | rect v => exact s.honest_readEntries v.requests
  | save a => exact Journal.honest_of_saved (fun _ => Animation.exists_of_mem_savings) _
  | clear => exact ⟨fun _ _ same => (nomatch same), trivial⟩

/-- The journal of a run is honest and accounts for what is kept after it. -/
theorem honest_journal (ops : List (Operation α μ ι)) :
    (journal ops).Honest .empty ∧ (journal ops).after .empty = (run ops).value.cache := by
  induction ops using List.reverseRecOn with
  | nil => exact ⟨trivial, rfl⟩
  | append_singleton ops op ih =>
      rcases ih with ⟨honest, after⟩
      rw [journal_concat, run_concat, Logged.value_bind, Journal.honest_append,
        Journal.after_append, after]
      exact ⟨⟨honest, honest_entries _ op⟩, after_entries _ op⟩

/-- To work out the visible part of the map plane is to read its scale, its angle and its
position. -/
theorem step_rect (s : Scheduler α μ ι) (v : Viewport α) :
    let reads : List (Operation α μ ι) := v.requests.map fun r => .read r.1 r.2
    (s.step (.rect v)).value = (s.runFrom reads).value ∧
      s.entries (.rect v) = s.journalFrom reads := by
  constructor
  · simp [step, rect, runFrom, Viewport.requests]
  · simp [entries, readEntries, journalFrom, Viewport.requests, step]

/-- What there is to say about the values kept for a channel after a run. -/
structure Accounts (ops : List (Operation α μ ι)) (c : Channel) : Prop where
  /-- The journal consists of the entries of the operations, each of them in the state in
  which it is carried out, and they account for what it does to the kept values. -/
  made : ∀ before op after, ops = before ++ op :: after →
    (∃ later, journal ops = journal before ++ (run before).value.entries op ++ later) ∧
      ((run before).value.entries op).after (run before).value.cache =
        (run (before ++ [op])).value.cache
  /-- Every value that was kept has exactly one fate: it is still there, or it was
  replaced, dropped or returned by a read at one place of the journal. -/
  fate : ∀ i v, (journal ops)[i]? = some (.saved c v) →
    ∃! fate, (journal ops).Meets c v i fate
  /-- A read that returns a kept value returns one that was saved once, for this read. -/
  returned : ∀ j v, (journal ops)[j]? = some (.read c .kept v) →
    ∃! i, (journal ops)[i]? = some (.saved c v) ∧ (journal ops).Meets c v i (.returned j)
  /-- The values still there are those that are kept. -/
  kept : ∀ v, (run ops).value.cache.find? c = some v ↔
    ∃ i, (journal ops)[i]? = some (.saved c v) ∧ (journal ops).Meets c v i .kept
  /-- While somebody in the running group drives the channel, a read returns neither a
  kept value nor the fallback, and changes nothing. -/
  shown : (∃ m ∈ (run ops).value.head, m.animation.exposes c = true) → ∃ v, ∀ cache fallback,
    ({ (run ops).value with cache := cache }.read c fallback).value =
      (v, { (run ops).value with cache := cache })
  /-- A read leaves the values of other channels and all animations alone. -/
  others : ∀ fallback, ∃ cache, (∀ d, d ≠ c → cache.find? d = (run ops).value.cache.find? d) ∧
    ((run ops).value.read c fallback).value.2 = { (run ops).value with cache := cache }
  /-- The visible part of the map plane takes three reads, and nothing else. -/
  rect : ∀ v : Viewport α,
    let reads : List (Operation α μ ι) :=
      [.read ⟨.mapPlane, .scale⟩ (.scalar v.scale), .read ⟨.mapPlane, .angle⟩ (.scalar v.angle),
        .read ⟨.mapPlane, .position⟩ (.point v.focus)]
    ((run ops).value.step (.rect v)).value = ((run ops).value.runFrom reads).value ∧
      (run ops).value.entries (.rect v) = (run ops).value.journalFrom reads
  /-- A read returns whatever it is given for a fallback exactly when nobody in the
  running group drives the channel and nothing is kept for it. -/
  fallback : (∀ fallback, ((run ops).value.read c fallback).value.1 = fallback) ↔
    (∀ m ∈ (run ops).value.head, m.animation.exposes c = false) ∧
      (run ops).value.cache.find? c = none

/-- Where somebody drives the channel, a read depends neither on what is kept nor on the
fallback, and changes nothing. -/
theorem read_shown {s : Scheduler α μ ι} {c : Channel}
    (h : ∃ m ∈ s.head, m.animation.exposes c = true) : ∃ v, ∀ cache fallback,
      ({ s with cache := cache }.read c fallback).value = (v, { s with cache := cache }) := by
  cases shown : s.shows c with
  | some v => exact ⟨v, fun cache => read_of_shows (s := { s with cache := cache }) shown⟩
  | none =>
      rcases h with ⟨m, hm, drives⟩
      rw [shows_eq_none_iff.mp shown m hm] at drives
      exact (Bool.false_ne_true drives).elim

/-- A read touches nothing but what is kept for its own channel. -/
theorem read_others (s : Scheduler α μ ι) (c : Channel) (fallback : PropertyValue α) :
    ∃ cache, (∀ d, d ≠ c → cache.find? d = s.cache.find? d) ∧
      (s.read c fallback).value.2 = { s with cache := cache } := by
  cases shown : s.shows c with
  | some v => exact ⟨s.cache, fun _ _ => rfl, by rw [read_of_shows shown]⟩
  | none =>
      refine ⟨s.cache.discard c, fun d other => ?_, by rw [read_of_shows_eq_none shown]⟩
      rw [Cache.find?_discard, if_neg other]

/-- The fallback is read exactly where nobody drives the channel and nothing is kept for it.
-/
theorem read_fallback_iff {s : Scheduler α μ ι} {c : Channel} :
    (∀ fallback, (s.read c fallback).value.1 = fallback) ↔
      (∀ m ∈ s.head, m.animation.exposes c = false) ∧ s.cache.find? c = none := by
  have value := s.value_read_eq c
  rw [← shows_eq_none_iff, ← Option.or_eq_none_iff]
  cases found : (s.shows c).or (s.cache.find? c) with
  | none => simp [value, found]
  | some v =>
      -- No value is equal to a scalar and to a point.
      refine iff_of_false (fun same => ?_) (by simp)
      have scalar := same (.scalar 0)
      have point := same (.point ⟨0, 0⟩)
      rw [value, found, Option.getD_some] at scalar point
      cases scalar.symm.trans point

/-- The entries of an operation stand in the journal where the operation stands in the run,
and lead from what was kept before it to what is kept after it. -/
theorem journal_made {ops before after : List (Operation α μ ι)} {op : Operation α μ ι}
    (split : ops = before ++ op :: after) :
    (∃ later, journal ops = journal before ++ (run before).value.entries op ++ later) ∧
      ((run before).value.entries op).after (run before).value.cache =
        (run (before ++ [op])).value.cache := by
  constructor
  · refine ⟨(run (before ++ [op])).value.journalFrom after, ?_⟩
    rw [← journal_concat, split, List.append_cons]
    exact journalFrom_append .empty (before ++ [op]) after
  · rw [run_concat, Logged.value_bind]
    exact after_entries _ op

/-- Over any run no kept value is lost, resurrected or returned twice, and a read takes
one only where nobody in the running group drives the channel. -/
theorem run_accounts (ops : List (Operation α μ ι)) (c : Channel) : Accounts ops c := by
  rcases honest_journal ops with ⟨honest, after⟩
  exact {
    made := fun _ _ _ split => journal_made split
    fate := fun _ _ saved => honest.existsUnique_fate saved
    returned := fun _ _ read => honest.existsUnique_saved read
    kept := fun v => after ▸ Journal.find?_after_iff_meets
    shown := read_shown
    others := read_others _ c
    rect := step_rect _
    fallback := read_fallback_iff }

/-- A turn that is over leaves its angle behind, for one read. -/
example : journal [.add (.ramp 0 [.angle] true true 0.5) false, .advance 0.5,
      .read ⟨.mapPlane, .angle⟩ (.scalar 7), .read ⟨.mapPlane, .angle⟩ (.scalar 7)] =
    [.saved ⟨.mapPlane, .angle⟩ (.scalar (0 + 0.5)),
      .read ⟨.mapPlane, .angle⟩ .kept (.scalar (0 + 0.5)),
      .read ⟨.mapPlane, .angle⟩ .fallback (.scalar (7 : Float))] := by
  rfl

end Scheduler

end CameraMotion
