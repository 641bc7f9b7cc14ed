import CameraMotion.Decimal.Shortest
import CameraMotion.Scalar.Double
import CameraMotion.Timing
import CameraMotion.Toml.Document

/-!
# Timing configuration

The timing of a camera as a TOML document gives it.  Keys that are missing keep
their standard values and keys that are unknown are passed over.  Values are
checked only once the whole document is read.
-/

namespace CameraMotion

/-- Why a configuration is refused. -/
inductive ConfigError where
  /-- There is no text to read. -/
  | unreadable
  /-- The text is no TOML document, or gives a constant something else than a
  number. -/
  | malformed
  /-- A constant is not a positive number. -/
  | invalid (field : Timing.Field) (value : Float)
deriving Repr

namespace ConfigError

/-- What is wrong with a value. -/
def reason (value : Float) : String :=
  "expected a positive number, got " ++ Decimal.floatText value

/-- The text of an error. -/
def message : ConfigError → String
  | .unreadable => "Failed to read config"
  | .malformed => "Failed to parse config"
  | .invalid field value => "Invalid config value `" ++ field.key ++ "`: " ++ reason value

end ConfigError

namespace Timing

/-! ## Checking -/

/-- The timing itself, if all of its constants can be used. -/
def check (t : Timing Float) : Except ConfigError (Timing Float) :=
  match t.invalidField? with
  | none => .ok t
  | some field => .error (.invalid field (t.get field))

/-! ## Reading -/

/-- The number that a key stands for. -/
def number? : Toml.Node → Option Float
  | .value (.integer n) => some (Decimal.toFloat ⟨n < 0, n.natAbs, 0⟩)
  | .value (.float x) => some x
  | _ => none

/-- Take one constant from a table. -/
def readField? (table : Toml.Table) (t : Timing Float) (field : Field) :
    Option (Timing Float) :=
  match table.find? field.key with
  | none => some t
  | some node => (number? node).map (t.set field)

/-- The timing that a table gives. -/
def ofTable? (table : Toml.Table) : Option (Timing Float) :=
  Field.all.foldlM (readField? table) standard

/-- The timing that a document gives. -/
def ofDocument (text : String) : Except ConfigError (Timing Float) :=
  match Toml.document? text.toList >>= ofTable? with
  | none => .error .malformed
  | some t => t.check

/-- The timing that the bytes of a file give, if there is such a file. -/
def ofFile (bytes : Option ByteArray) : Except ConfigError (Timing Float) :=
  match bytes.bind String.fromUTF8? with
  | none => .error .unreadable
  | some text => ofDocument text

end Timing

end CameraMotion
