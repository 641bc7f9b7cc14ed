import CameraMotion.Animation.Run

/-!
# Mixing

When two animations may run side by side.  Both ask the same question on every
object that both touch: are they willing to share it, and do they drive different
properties on it?
-/

namespace CameraMotion.Animation

variable {α μ ι : Type} [Scalar α] [Motion α μ]

/-- Whether the animation is willing to share an object with what drives the given
properties on it: it is mixable and drives none of them. -/
def mixesOn (a : Animation α μ ι) (o : Object) (others : PropertySet) :
    Watched α μ ι Bool := do
  if a.mixable then
    Watched.breaches (Violation.unless (a.touches o) .untouchedObject)
    let own ← a.properties o
    pure (own.disjoint others)
  else
    pure false

/-- Whether a mixable animation may run beside one that is not mixable: they drive
different properties on every object that both touch.  The question has a
direction, and two mixable animations never pass it. -/
def mixesWith (a other : Animation α μ ι) : Watched α μ ι Bool :=
  if !a.mixable || other.mixable then
    pure false
  else
    Logged.all
      (fun o => do
        let others ← other.properties o
        a.mixesOn o others)
      (other.declarations.objects.filter a.touches)

/-- Whether two animations may run in one group: on every object that both touch,
each is willing to share it with the properties of the other. -/
def canShareGroup (member candidate : Animation α μ ι) : Watched α μ ι Bool :=
  Logged.all
    (fun o => do
      let theirs ← candidate.properties o
      if ← member.mixesOn o theirs then
        let own ← member.properties o
        candidate.mixesOn o own
      else
        pure false)
    (member.declarations.objects.filter candidate.touches)

end CameraMotion.Animation
