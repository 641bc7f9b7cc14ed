import CameraMotion.Decimal.Shortest

/-!
# Significant digits

Rounding a double to a number of significant decimal digits, ties to even, and
writing the result with one digit before the point and an exponent.
-/

namespace CameraMotion.Decimal

/-! ## Rounding a quotient -/

/-- The natural number nearest to `num / den`, the even one on a tie. -/
def roundQuotient (num den : Nat) : Nat :=
  let below := num / den
  let rest := num % den
  if 2 * rest < den then below
  else if den < 2 * rest then below + 1
  else below + below % 2

/-- The power of ten of the first digit of the positive quotient `num / den`. -/
def leadingExponent (num den : Nat) : Int :=
  if den ≤ num then
    digitCount (num / den) - 1
  else
    let places := digitCount (den / num)
    if den ≤ num * Nat.pow 10 (places - 1) then 1 - places else -places

/-- The quotient `num / den` rounded to `count` significant digits. -/
def roundSignificant (count : Nat) (negative : Bool) (num den : Nat) : Decimal :=
  let exponent := leadingExponent num den - (count - 1)
  let digits :=
    roundQuotient (num * Nat.pow 10 (-exponent).toNat) (den * Nat.pow 10 exponent.toNat)
  ⟨negative, digits, exponent⟩

/-! ## Notation with an exponent -/

/-- Drop the zeros at the end of a list of digits. -/
def dropTrailingZeros (digits : List Char) : List Char :=
  (digits.reverse.dropWhile (· = '0')).reverse

/-- An integer in decimal digits. -/
def integerText (n : Int) : String :=
  signText (n < 0) ++ String.ofList (digitChars n.natAbs)

/-- One digit, the others behind a point unless they are zeros, and the exponent
of the first digit. -/
def exponentText (d : Decimal) : String :=
  let written := digitChars d.digits
  let exponent := d.exponent + (written.length - 1)
  let mantissa :=
    match dropTrailingZeros written with
    | [] => ['0']
    | [digit] => [digit]
    | digit :: rest => digit :: '.' :: rest
  signText d.negative ++ String.ofList mantissa ++ "e" ++ integerText exponent

/-- A double rounded to `count` significant digits.  Zero is written without a
sign. -/
def significantText (count : Nat) (x : Float) : String :=
  match Magnitude.ofFloat x with
  | .nan => "NaN"
  | .infinite negative => signText negative ++ "inf"
  | .finite _ 0 _ => "0e0"
  | .finite negative mantissa exponent =>
      exponentText (roundSignificant count negative
        (mantissa * Nat.pow 2 exponent.toNat) (Nat.pow 2 (-exponent).toNat))

end CameraMotion.Decimal
