import CameraMotion.Event

/-!
# Reading leaves

Questions to a leaf that not everybody may ask.  A follow is asked only about the
map plane, and its value is read only where it drives; whoever asks anything else
gets an answer all the same, and the log tells.
-/

namespace CameraMotion.Leaf

variable {α μ ι : Type} [Motion α μ]

/-- The properties driven on an object. -/
def properties (l : Leaf α μ) (o : Object) : Watched α μ ι PropertySet := do
  match l with
  | .motion _ => pure ()
  | .follow _ => Watched.breaches (Violation.unless (o = .mapPlane) (.followObject o))
  pure (l.declarations.on o)

/-- The value of a channel. -/
def reading [Scalar α] (l : Leaf α μ) (c : Channel) :
    Watched α μ ι (PropertyValue α) := do
  match l with
  | .motion m => pure (Motion.reading m c)
  | .follow f =>
      Watched.breaches
        (Violation.unless (c.object = .mapPlane) (.followObject c.object))
      match f.reading? c.property with
      | some value => pure value
      | none =>
          Logged.emit
            [.breach (.followProperty c.property), .fault (.followProperty c.property)]
          pure .fallback

end CameraMotion.Leaf
