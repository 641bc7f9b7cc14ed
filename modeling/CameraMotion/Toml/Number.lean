import CameraMotion.Decimal.Basic

/-!
# Numbers of a TOML document

Integers in four bases and floating-point numbers.  Underscores may stand between
digits.  An integer has to fit into 64 bits with a sign.
-/

namespace CameraMotion.Toml

/-- A number as a document gives it. -/
inductive Number where
  /-- An integer. -/
  | integer (n : Int)
  /-- A floating-point number. -/
  | float (x : Float)

/-! ## Digits -/

/-- The value of a digit in the bases up to sixteen. -/
def digitValue? (c : Char) : Option Nat :=
  if '0' ≤ c && c ≤ '9' then some (c.toNat - '0'.toNat)
  else if 'a' ≤ c && c ≤ 'f' then some (c.toNat - 'a'.toNat + 10)
  else if 'A' ≤ c && c ≤ 'F' then some (c.toNat - 'A'.toNat + 10)
  else none

/-- The value of a digit in a base. -/
def digitIn? (base : Nat) (c : Char) : Option Nat :=
  (digitValue? c).filter (· < base)

/-- The number that digit values stand for. -/
def ofDigits (base : Nat) (digits : List Nat) : Nat :=
  digits.foldl (fun n digit => base * n + digit) 0

/-- Read further digits.  An underscore counts only before a digit. -/
def moreDigits (base : Nat) : List Char → List Nat × List Char
  | [] => ([], [])
  | '_' :: c :: rest =>
      match digitIn? base c with
      | some digit => let (digits, left) := moreDigits base rest; (digit :: digits, left)
      | none => ([], '_' :: c :: rest)
  | c :: rest =>
      match digitIn? base c with
      | some digit => let (digits, left) := moreDigits base rest; (digit :: digits, left)
      | none => ([], c :: rest)

/-- Read one or more digits. -/
def digits? (base : Nat) : List Char → Option (List Nat × List Char)
  | [] => none
  | c :: rest =>
      match digitIn? base c with
      | some digit => let (digits, left) := moreDigits base rest; some (digit :: digits, left)
      | none => none

/-- Read the digits of a whole number, which has no leading zeros. -/
def wholeDigits? : List Char → Option (List Nat × List Char)
  | '0' :: rest => some ([0], rest)
  | s => digits? 10 s

/-- Read a sign; whether it is a minus. -/
def sign : List Char → Bool × List Char
  | '-' :: rest => (true, rest)
  | '+' :: rest => (false, rest)
  | s => (false, s)

/-! ## Integers -/

/-- An integer, if it fits. -/
def integer? (n : Int) : Option Number :=
  if -9223372036854775808 ≤ n && n ≤ 9223372036854775807 then some (.integer n) else none

/-- The integer with a sign and a magnitude, if it fits. -/
def signedInteger? (negative : Bool) (magnitude : Nat) : Option Number :=
  integer? (if negative then -magnitude else magnitude)

/-- The base that a letter after a leading zero stands for. -/
def baseOf? : Char → Option Nat
  | 'x' => some 16
  | 'o' => some 8
  | 'b' => some 2
  | _ => none

/-- Read an integer in a base other than ten, which has no sign. -/
def based? : List Char → Option (Number × List Char)
  | '0' :: letter :: rest => do
      let base ← baseOf? letter
      let (digits, rest) ← digits? base rest
      let n ← integer? (ofDigits base digits)
      pure (n, rest)
  | _ => none

/-! ## Floating-point numbers -/

/-- Read a fraction, if there is one. -/
def fraction? : List Char → Option (List Nat × List Char)
  | '.' :: rest => digits? 10 rest
  | s => some ([], s)

/-- Read a power of ten, if there is one. -/
def power? : List Char → Option (Option Int × List Char)
  | c :: rest =>
      if c = 'e' || c = 'E' then do
        let (negative, rest) := sign rest
        let (digits, rest) ← digits? 10 rest
        let magnitude : Int := ofDigits 10 digits
        pure (some (if negative then -magnitude else magnitude), rest)
      else
        some (none, c :: rest)
  | [] => some (none, [])

/-- The floating-point number nearest to a decimal.  A positive number beyond all
of them is refused. -/
def float? (d : Decimal) : Option Number :=
  let x := d.toFloat
  if !d.negative && x == 1.0 / 0.0 then none else some (.float x)

/-- Read a decimal number.  Without a fraction and a power it is an integer. -/
def decimal? (s : List Char) : Option (Number × List Char) := do
  let (negative, s) := sign s
  let (whole, s) ← wholeDigits? s
  let (fraction, s) ← fraction? s
  let (power, s) ← power? s
  let n ←
    if fraction.isEmpty && power.isNone then
      signedInteger? negative (ofDigits 10 whole)
    else
      float? ⟨negative, ofDigits 10 (whole ++ fraction), power.getD 0 - fraction.length⟩
  pure (n, s)

/-- Read an infinity or what is not a number. -/
def special? (s : List Char) : Option (Number × List Char) :=
  let (negative, s) := sign s
  match s with
  | 'i' :: 'n' :: 'f' :: rest =>
      some (.float (if negative then -(1.0 / 0.0) else 1.0 / 0.0), rest)
  | 'n' :: 'a' :: 'n' :: rest => some (.float (0.0 / 0.0), rest)
  | _ => none

/-- Read a number. -/
def number? (s : List Char) : Option (Number × List Char) :=
  based? s <|> special? s <|> decimal? s

end CameraMotion.Toml
