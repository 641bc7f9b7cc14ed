import CameraMotion.Toml.Number

/-!
# Dates and times of a TOML document

A moment is a date, a time of day, or both with a letter or a blank between them;
a date with a time may name its distance from universal time.  Only days that the
calendar has are accepted.
-/

namespace CameraMotion.Toml

/-! ## Fields -/

/-- Read a fixed number of decimal digits. -/
def fixedDigits? : Nat → List Char → Option (List Nat × List Char)
  | 0, s => some ([], s)
  | _ + 1, [] => none
  | count + 1, c :: rest => do
      let digit ← digitIn? 10 c
      let (digits, rest) ← fixedDigits? count rest
      pure (digit :: digits, rest)

/-- Read a field of fixed width whose value lies between two bounds. -/
def field? (width least greatest : Nat) (s : List Char) : Option (Nat × List Char) := do
  let (digits, rest) ← fixedDigits? width s
  let n := ofDigits 10 digits
  if least ≤ n && n ≤ greatest then some (n, rest) else none

/-- Read one given character. -/
def symbol? (expected : Char) : List Char → Option (List Char)
  | c :: rest => if c = expected then some rest else none
  | [] => none

/-! ## Dates -/

/-- Whether a year has a 29th of February. -/
def isLeapYear (year : Nat) : Bool :=
  (year % 4 = 0 && year % 100 ≠ 0) || year % 400 = 0

/-- How many days a month has. -/
def daysIn (year month : Nat) : Nat :=
  if month = 2 then
    if isLeapYear year then 29 else 28
  else if month = 4 || month = 6 || month = 9 || month = 11 then 30
  else 31

/-- Read a date. -/
def date? (s : List Char) : Option (List Char) := do
  let (year, s) ← field? 4 0 9999 s
  let s ← symbol? '-' s
  let (month, s) ← field? 2 1 12 s
  let s ← symbol? '-' s
  let (_, s) ← field? 2 1 (daysIn year month) s
  pure s

/-! ## Times of day -/

/-- Read hours and minutes. -/
def hourMinute? (s : List Char) : Option (List Char) := do
  let (_, s) ← field? 2 0 23 s
  let s ← symbol? ':' s
  let (_, s) ← field? 2 0 59 s
  pure s

/-- Read the share of a second, if there is one. -/
def secondFraction? : List Char → Option (List Char)
  | '.' :: rest =>
      let left := rest.dropWhile fun c => (digitIn? 10 c).isSome
      if left.length < rest.length then some left else none
  | s => some s

/-- Read a time of day.  A leap second is its 60th. -/
def timeOfDay? (s : List Char) : Option (List Char) := do
  let s ← hourMinute? s
  let s ← symbol? ':' s
  let (_, s) ← field? 2 0 60 s
  secondFraction? s

/-- Read the distance from universal time, if there is one. -/
def offset? : List Char → Option (List Char)
  | c :: rest =>
      if c = 'Z' || c = 'z' then some rest
      else if c = '+' || c = '-' then hourMinute? rest
      else some (c :: rest)
  | [] => some []

/-! ## Moments -/

/-- Read the time that follows a date, if there is one. -/
def timeAfterDate (s : List Char) : List Char :=
  match s with
  | c :: rest =>
      if c = 'T' || c = 't' || c = ' ' then
        (timeOfDay? rest >>= offset?).getD s
      else s
  | [] => []

/-- Read a moment, kept as it is written. -/
def moment? (s : List Char) : Option (String × List Char) := do
  let rest ← (timeAfterDate <$> date? s) <|> timeOfDay? s
  pure (String.ofList (s.take (s.length - rest.length)), rest)

end CameraMotion.Toml
