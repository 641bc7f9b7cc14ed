import CameraMotion.PropertyValue
import CameraMotion.Channel

/-!
# Last values

The values that animations left behind, at most one for each channel.

Main results:

- Theorems `Cache.find?_store` and `Cache.find?_discard`: storing and discarding
  change what is found on that channel and on no other.
- Theorem `Cache.ext_find?`: a cache is determined by what is found in it.
-/

namespace CameraMotion

/-- At most one value for each channel. -/
structure Cache (α : Type) where
  /-- What is kept for each property of each object. -/
  entries : ByObject (ByProperty (Option (PropertyValue α)))
deriving DecidableEq, Repr

namespace Cache

variable {α : Type}

/-- The value kept for a channel. -/
def find? (cache : Cache α) (c : Channel) : Option (PropertyValue α) :=
  (cache.entries.get c.object).get c.property

/-- Nothing is kept. -/
def empty : Cache α :=
  ⟨.tabulate fun _ => .tabulate fun _ => none⟩

/-- Say what is kept for a channel. -/
def put (cache : Cache α) (c : Channel) (entry : Option (PropertyValue α)) : Cache α :=
  ⟨cache.entries.set c.object ((cache.entries.get c.object).set c.property entry)⟩

/-- Keep a value for a channel, in place of what was kept. -/
def store (cache : Cache α) (c : Channel) (value : PropertyValue α) : Cache α :=
  cache.put c (some value)

/-- Keep nothing for a channel. -/
def discard (cache : Cache α) (c : Channel) : Cache α :=
  cache.put c none

/-- Keep several values, later ones in place of earlier ones. -/
def storeAll (cache : Cache α) (values : List (Channel × PropertyValue α)) : Cache α :=
  values.foldl (fun cache entry => cache.store entry.1 entry.2) cache

/-- The channels for which a value is kept. -/
def channels (cache : Cache α) : List Channel :=
  Channel.all.filter fun c => (cache.find? c).isSome

/-- How many values are kept. -/
def size (cache : Cache α) : Nat :=
  cache.channels.length

/-- Whether a value is kept for some property of an object. -/
def touches (cache : Cache α) (o : Object) : Bool :=
  Property.all.any fun p => (cache.find? ⟨o, p⟩).isSome

/-- Nothing is found in the empty cache. -/
@[simp] theorem find?_empty (c : Channel) : (empty : Cache α).find? c = none := by
  simp [find?, empty]

/-- What is put is found on that channel, and nothing else changes. -/
theorem find?_put (cache : Cache α) (c d : Channel) (entry : Option (PropertyValue α)) :
    (cache.put c entry).find? d = if d = c then entry else cache.find? d := by
  rcases c with ⟨o, p⟩
  rcases d with ⟨o', p'⟩
  by_cases ho : o' = o
  · subst ho
    simp [find?, put]
  · simp [find?, put, ho]

/-- A stored value is found on its channel, and nothing else changes. -/
@[simp] theorem find?_store (cache : Cache α) (c d : Channel) (value : PropertyValue α) :
    (cache.store c value).find? d = if d = c then some value else cache.find? d :=
  find?_put cache c d (some value)

/-- A discarded value is gone from its channel, and nothing else changes. -/
@[simp] theorem find?_discard (cache : Cache α) (c d : Channel) :
    (cache.discard c).find? d = if d = c then none else cache.find? d :=
  find?_put cache c d none

/-- A cache is determined by what is found in it. -/
theorem ext_find? {a b : Cache α} (h : ∀ c, a.find? c = b.find? c) : a = b := by
  rcases a with ⟨a⟩
  rcases b with ⟨b⟩
  have : a = b := by
    apply ByObject.ext
    intro o
    apply ByProperty.ext
    intro p
    exact h ⟨o, p⟩
  rw [this]

end Cache

end CameraMotion
