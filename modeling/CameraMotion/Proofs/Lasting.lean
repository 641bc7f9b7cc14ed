import CameraMotion.Motion.Ramp
import CameraMotion.Proofs.Compatible

/-!
# Declarations that last

Some leaves declare the same for as long as they live; a follow is one of them.  In
a tree of such leaves a parallel goes on to cover whatever its running members
drive, except for members that are sequences: these declare anew with every stage.

Main results:

- Theorem `Leaf.steady_follow`: a follow never declares anew.
- Theorem `Animation.Built.lasting`: what is built from steady leaves has
  declarations that last.
- Theorem `Animation.Lasting.declarations_advanced`: time changes the declarations
  of no animation but a sequence.
- Theorem `Animation.Lasting.declares_of_exposes`: without sequences, what is driven
  right now is declared.
-/

namespace CameraMotion

variable {α μ ι : Type} [Scalar α] [Motion α μ]

/-! ## Leaves -/

namespace Leaf

/-- What a leaf becomes as time passes and its end is brought forward. -/
inductive Later (l : Leaf α μ) : Leaf α μ → Prop where
  | refl : Later l l
  | advance {k : Leaf α μ} (h : Later l k) (seconds : α) : Later l (k.advance seconds)
  | cap {k : Leaf α μ} (h : Later l k) (limit : α) : Later l (k.cap limit)

/-- The leaf declares the same, and shares its objects alike, for as long as it
lives. -/
def Steady (l : Leaf α μ) : Prop :=
  ∀ k, Later l k → k.declarations = l.declarations ∧ k.mixable = l.mixable

/-- What becomes of a leaf later becomes of it in the end. -/
theorem Later.trans {l k j : Leaf α μ} (hlk : Later l k) (hkj : Later k j) : Later l j := by
  induction hkj with
  | refl => exact hlk
  | advance _ seconds ih => exact ih.advance seconds
  | cap _ limit ih => exact ih.cap limit

/-- A steady leaf stays steady. -/
theorem Steady.later {l k : Leaf α μ} (h : l.Steady) (hlk : Later l k) : k.Steady := by
  intro j hkj
  rcases h j (hlk.trans hkj) with ⟨hj, hj'⟩
  rcases h k hlk with ⟨hk, hk'⟩
  exact ⟨hj.trans hk.symm, hj'.trans hk'.symm⟩

/-- A follow never declares anew. -/
theorem steady_follow (f : Follow α) : Steady (.follow f : Leaf α μ) := by
  intro k hk
  have same : ∃ g : Follow α, k = .follow g ∧ g.driven = f.driven := by
    induction hk with
    | refl => exact ⟨f, rfl, rfl⟩
    | advance _ seconds ih =>
        rcases ih with ⟨g, rfl, driven⟩
        exact ⟨g.advance seconds, rfl, driven⟩
    | cap _ limit ih =>
        rcases ih with ⟨g, rfl, driven⟩
        exact ⟨g.cap limit, rfl, driven⟩
  rcases same with ⟨g, rfl, driven⟩
  exact ⟨by simp [Leaf.declarations, Follow.declarations, driven], rfl⟩

/-- A ramp never declares anew. -/
theorem steady_ramp (r : Ramp α) : Steady (.motion r : Leaf α (Ramp α)) := by
  intro k hk
  have same : ∃ q : Ramp α, k = .motion q ∧ q.declarations = r.declarations ∧
      q.mixable = r.mixable := by
    induction hk with
    | refl => exact ⟨r, rfl, rfl, rfl⟩
    | advance _ seconds ih =>
        rcases ih with ⟨q, rfl, declared, mixes⟩
        exact ⟨q.advance seconds, rfl, declared, mixes⟩
    | cap _ limit ih =>
        rcases ih with ⟨q, rfl, declared, mixes⟩
        refine ⟨q.cap limit, rfl, ?_⟩
        unfold Ramp.cap
        split <;> exact ⟨declared, mixes⟩
  rcases same with ⟨q, rfl, declared, mixes⟩
  exact ⟨declared, mixes⟩

end Leaf

namespace Animation

/-! ## Trees -/

/-- What can be built from leaves of some kind: parallels and sequences are filled
part by part, and everything may be advanced or capped on the way. -/
inductive Built (P : Leaf α μ → Prop) : Animation α μ ι → Prop where
  | leaf {listener : ι} {body : Leaf α μ} (h : P body) : Built P (.leaf listener body)
  | parallel : Built P (.parallel .empty [])
  | sequence : Built P (.sequence [])
  | add {whole part : Animation α μ ι} (hw : Built P whole) (hp : Built P part) :
      Built P (whole.add part)
  | advance {a : Animation α μ ι} (h : Built P a) (seconds : α) : Built P (a.advanced seconds)
  | cap {a : Animation α μ ι} (h : Built P a) (limit : α) : Built P (a.cap limit)

/-- A parallel is built when its members are. -/
theorem Built.together {P : Leaf α μ → Prop} {members : List (Animation α μ ι)}
    (h : ∀ m ∈ members, Built P m) : Built P (together members) := by
  refine List.foldlRecOn members Animation.add Built.parallel fun whole hw m hm => ?_
  exact hw.add (h m hm)

/-- The animation is a sequence. -/
def IsSequence : Animation α μ ι → Prop
  | .sequence _ => True
  | _ => False

/-- No sequence occurs in the animation. -/
inductive SequenceFree : Animation α μ ι → Prop where
  | leaf (listener : ι) (body : Leaf α μ) : SequenceFree (.leaf listener body)
  | parallel {declared : Declarations} {members : List (Animation α μ ι)}
      (h : ∀ m ∈ members, SequenceFree m) : SequenceFree (.parallel declared members)

/-- All leaves are steady, and a parallel declares what its members declare, those
apart that are sequences. -/
inductive Lasting : Animation α μ ι → Prop where
  | leaf {listener : ι} {body : Leaf α μ} (h : body.Steady) : Lasting (.leaf listener body)
  | parallel {declared : Declarations} {members : List (Animation α μ ι)}
      (h : ∀ m ∈ members, Lasting m)
      (covers : ∀ m ∈ members, ¬m.IsSequence → ∀ c,
        m.declarations.declares c = true → declared.declares c = true) :
      Lasting (.parallel declared members)
  | sequence {stages : List (Animation α μ ι)} (h : ∀ m ∈ stages, Lasting m) :
      Lasting (.sequence stages)

omit [Scalar α] [Motion α μ] in
/-- What is free of sequences is no sequence. -/
theorem SequenceFree.not_isSequence {a : Animation α μ ι} (h : a.SequenceFree) :
    ¬a.IsSequence := by
  cases h <;> simp [IsSequence]

/-- Time makes no sequence and takes none away. -/
theorem isSequence_advanced {a : Animation α μ ι} {seconds : α} :
    (a.advanced seconds).IsSequence ↔ a.IsSequence := by
  rcases a with ⟨listener, body⟩ | ⟨declared, members⟩ | (_ | ⟨head, _ | ⟨next, later⟩⟩)
  · simp [IsSequence]
  · simp [IsSequence]
  · simp [IsSequence]
  · simp [IsSequence]
  · rw [advanced_sequence_cons_cons]
    split <;> simp [IsSequence]

/-- A limit makes no sequence and takes none away. -/
theorem isSequence_cap {a : Animation α μ ι} {limit : α} :
    (a.cap limit).IsSequence ↔ a.IsSequence := by
  rcases a with ⟨listener, body⟩ | ⟨declared, members⟩ | (_ | ⟨head, rest⟩) <;>
    simp [cap, IsSequence]

omit [Scalar α] in
/-- What is put together from parts without sequences is free of them. -/
theorem SequenceFree.add {whole part : Animation α μ ι} (hw : whole.SequenceFree)
    (hp : part.SequenceFree) : (whole.add part).SequenceFree := by
  cases hw with
  | leaf listener body => exact .leaf listener body
  | parallel h =>
      refine .parallel fun m hm => ?_
      rcases List.mem_append.mp hm with hm | hm
      · exact h m hm
      · rwa [List.mem_singleton.mp hm]

omit [Scalar α] in
/-- A parallel is free of sequences when its members are. -/
theorem SequenceFree.together {members : List (Animation α μ ι)}
    (h : ∀ m ∈ members, m.SequenceFree) : (Animation.together members).SequenceFree := by
  have first : SequenceFree (.parallel .empty [] : Animation α μ ι) := .parallel (by simp)
  refine List.foldlRecOn members Animation.add first fun whole hw m hm => ?_
  exact hw.add (h m hm)

/-- Time brings no sequence into an animation. -/
theorem SequenceFree.advanced {a : Animation α μ ι} (h : a.SequenceFree) (seconds : α) :
    (a.advanced seconds).SequenceFree := by
  induction h with
  | leaf listener body => simpa using .leaf listener (body.advance seconds)
  | parallel _ ih =>
      rw [advanced_parallel]
      refine .parallel fun m hm => ?_
      rcases mem_stayers.mp hm with ⟨⟨m₀, hm₀, rfl⟩, _⟩
      exact ih m₀ hm₀

namespace Lasting

/-- Time changes the declarations of no animation but a sequence. -/
theorem declarations_advanced {a : Animation α μ ι} (h : a.Lasting) (plain : ¬a.IsSequence)
    (seconds : α) : (a.advanced seconds).declarations = a.declarations := by
  cases h with
  | leaf steady => simpa [declarations] using (steady _ (.advance .refl seconds)).1
  | parallel _ _ => simp [declarations]
  | sequence _ => exact absurd trivial plain

/-- What keeps to its declarations goes on to do so. -/
theorem advanced {a : Animation α μ ι} (h : a.Lasting) (seconds : α) :
    (a.advanced seconds).Lasting := by
  induction h with
  | leaf steady => simpa using Lasting.leaf (steady.later (.advance .refl seconds))
  | @parallel declared members lasting covers ih =>
      rw [advanced_parallel]
      apply Lasting.parallel
      · intro m hm
        rcases mem_stayers.mp hm with ⟨⟨m₀, hm₀, rfl⟩, _⟩
        exact ih m₀ hm₀
      · intro m hm plain c hc
        rcases mem_stayers.mp hm with ⟨⟨m₀, hm₀, rfl⟩, _⟩
        rw [isSequence_advanced] at plain
        rw [(lasting m₀ hm₀).declarations_advanced plain] at hc
        exact covers m₀ hm₀ plain c hc
  | @sequence stages lasting ih =>
      cases stages with
      | nil => simpa using Lasting.sequence lasting
      | cons head rest =>
          cases rest with
          | nil =>
              rw [advanced_sequence_single]
              exact .sequence (by simpa using ih)
          | cons next later =>
              rw [advanced_sequence_cons_cons]
              split
              · exact .sequence fun m hm => lasting m (List.mem_cons_of_mem _ hm)
              · refine .sequence fun m hm => ?_
                rcases List.mem_cons.mp hm with rfl | hm
                · exact ih head (by simp)
                · exact lasting m (List.mem_cons_of_mem _ hm)

/-- Bringing the end forward changes the declarations of no animation but a
sequence. -/
theorem declarations_cap {a : Animation α μ ι} (h : a.Lasting) (plain : ¬a.IsSequence)
    (limit : α) : (a.cap limit).declarations = a.declarations := by
  cases h with
  | leaf steady => simpa [Animation.cap, declarations] using (steady _ (.cap .refl limit)).1
  | parallel _ _ => simp [Animation.cap, declarations]
  | sequence _ => exact absurd trivial plain

/-- Lasting declarations outlast an end that is brought forward. -/
theorem cap {a : Animation α μ ι} (h : a.Lasting) (limit : α) : (a.cap limit).Lasting := by
  induction h with
  | leaf steady =>
      rw [Animation.cap]
      exact .leaf (steady.later (.cap .refl limit))
  | @parallel declared members lasting covers ih =>
      rw [Animation.cap, capAll_eq]
      apply Lasting.parallel
      · intro m hm
        rcases List.mem_map.mp hm with ⟨m₀, hm₀, rfl⟩
        exact ih m₀ hm₀
      · intro m hm plain c hc
        rcases List.mem_map.mp hm with ⟨m₀, hm₀, rfl⟩
        rw [isSequence_cap] at plain
        rw [(lasting m₀ hm₀).declarations_cap plain] at hc
        exact covers m₀ hm₀ plain c hc
  | @sequence stages lasting ih =>
      cases stages with
      | nil => simpa [Animation.cap] using Lasting.sequence lasting
      | cons head rest =>
          rw [Animation.cap]
          refine .sequence fun m hm => ?_
          rcases List.mem_cons.mp hm with rfl | hm
          · exact ih head (by simp)
          · exact lasting m (List.mem_cons_of_mem _ hm)

/-- A parallel that covers its members covers one more part once it is added. -/
theorem add {whole part : Animation α μ ι} (hw : whole.Lasting) (hp : part.Lasting) :
    (whole.add part).Lasting := by
  cases hw with
  | leaf steady => exact .leaf steady
  | @parallel declared members lasting covers =>
      rw [Animation.add]
      apply Lasting.parallel
      · intro m hm
        rcases List.mem_append.mp hm with hm | hm
        · exact lasting m hm
        · rwa [List.mem_singleton.mp hm]
      · intro m hm plain c hc
        rw [Declarations.declares_union, Bool.or_eq_true]
        rcases List.mem_append.mp hm with hm | hm
        · exact .inl (covers m hm plain c hc)
        · rw [List.mem_singleton.mp hm] at hc
          exact .inr hc
  | @sequence stages lasting =>
      rw [Animation.add]
      refine .sequence fun m hm => ?_
      rcases List.mem_append.mp hm with hm | hm
      · exact lasting m hm
      · rwa [List.mem_singleton.mp hm]

end Lasting

/-- What is built from steady leaves has declarations that last. -/
theorem Built.lasting {a : Animation α μ ι} (h : Built Leaf.Steady a) : a.Lasting := by
  induction h with
  | leaf steady => exact .leaf steady
  | parallel => exact .parallel (by simp) (by simp)
  | sequence => exact .sequence (by simp)
  | add _ _ ihw ihp => exact ihw.add ihp
  | advance _ seconds ih => exact ih.advanced seconds
  | cap _ limit ih => exact ih.cap limit

namespace Lasting

/-- Without sequences, an animation that may share its objects goes on to do so: a
parallel only loses members that might object. -/
theorem mixable_advanced {a : Animation α μ ι} (h : a.Lasting) (free : a.SequenceFree)
    (mixable : a.mixable = true) (seconds : α) : (a.advanced seconds).mixable = true := by
  induction free with
  | leaf listener body =>
      cases h with
      | leaf steady =>
          have same := (steady _ (.advance .refl seconds)).2
          simpa [Animation.mixable, same] using mixable
  | parallel _ ih =>
      cases h with
      | parallel lasting covers =>
          rw [Animation.mixable, allMixable_eq, List.all_eq_true] at mixable
          rw [advanced_parallel, Animation.mixable, allMixable_eq, List.all_eq_true]
          intro m hm
          rcases mem_stayers.mp hm with ⟨⟨m₀, hm₀, rfl⟩, _⟩
          exact ih m₀ hm₀ (lasting m₀ hm₀) (mixable m₀ hm₀)

/-- Without sequences, what is driven right now is declared. -/
theorem declares_of_exposes {a : Animation α μ ι} (h : a.Lasting) (free : a.SequenceFree)
    {c : Channel} (exposed : a.exposes c = true) : a.declarations.declares c = true := by
  induction free with
  | leaf listener body => simpa [exposes, declarations] using exposed
  | parallel members ih =>
      cases h with
      | parallel lasting covers =>
          rw [exposes_parallel] at exposed
          rcases exposed with ⟨m, hm, exposed⟩
          exact covers m hm (members m hm).not_isSequence c (ih m hm (lasting m hm) exposed)

end Lasting

/-- Without sequences, two compatible animations stay compatible. -/
theorem Compatible.advanced {a b : Animation α μ ι} (h : a.Compatible b)
    (ha : a.Lasting) (fa : a.SequenceFree) (hb : b.Lasting) (fb : b.SequenceFree)
    (seconds : α) : (a.advanced seconds).Compatible (b.advanced seconds) :=
  h.of_unchanged (ha.declarations_advanced fa.not_isSequence seconds)
    (fun mixable => ha.mixable_advanced fa mixable seconds)
    (hb.declarations_advanced fb.not_isSequence seconds)
    (fun mixable => hb.mixable_advanced fb mixable seconds)

end Animation

end CameraMotion
