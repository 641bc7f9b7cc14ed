import CameraMotion.Animation.Run

/-!
# Snapshots

The values that an animation shows at one moment on the channels that it declares
and still drives.  They are what is left of it once it is gone.
-/

namespace CameraMotion.Animation

variable {α μ ι : Type} [Scalar α] [Motion α μ]

/-- The values of some properties of an object, as far as they are driven. -/
def snapshotProperties (a : Animation α μ ι) (o : Object) :
    List Property → Watched α μ ι (List (Channel × PropertyValue α))
  | [] => pure []
  | p :: ps => do
      if a.exposes ⟨o, p⟩ then
        let value ← a.reading ⟨o, p⟩
        pure ((⟨o, p⟩, value) :: (← a.snapshotProperties o ps))
      else
        a.snapshotProperties o ps

/-- The values on some objects. -/
def snapshotObjects (a : Animation α μ ι) :
    List Object → Watched α μ ι (List (Channel × PropertyValue α))
  | [] => pure []
  | o :: os => do
      let driven ← a.properties o
      let values ← a.snapshotProperties o driven.toList
      pure (values ++ (← a.snapshotObjects os))

/-- The values on every channel that is declared and driven. -/
def snapshot (a : Animation α μ ι) : Watched α μ ι (List (Channel × PropertyValue α)) :=
  a.snapshotObjects a.declarations.objects

end CameraMotion.Animation
