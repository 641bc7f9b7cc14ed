import CameraMotion.Decimal.Basic

/-!
# Shortest decimals

The fewest digits that still read back as the same double, and among the
decimals with that many digits the nearest one.

A double `m · 2 ^ q` is read back by every real number that rounds to it.  These
reals form an interval around it that reaches half way to each neighbour, ends
included exactly when `m` is even, because a tie goes to the even mantissa.  On
every grid of powers of ten, coarsest first, the two grid points around the
double are tried; the first grid with a point inside the interval wins.
-/

namespace CameraMotion.Decimal

/-! ## The interval that reads back -/

/-- Three positive numbers over one denominator: a double and the ends of the
interval of reals that round to it. -/
structure RoundingInterval where
  /-- Numerator of the lower end. -/
  low : Nat
  /-- Numerator of the double itself. -/
  value : Nat
  /-- Numerator of the upper end. -/
  high : Nat
  /-- The common denominator. -/
  unit : Nat
  /-- Whether the two ends themselves round to the double. -/
  closed : Bool

/-- The interval around `mantissa · 2 ^ exponent`, counted in quarters of the
spacing.  Just above a power of two the spacing below is half as wide. -/
def RoundingInterval.ofMagnitude (mantissa : Nat) (exponent : Int) : RoundingInterval :=
  let narrow := mantissa = Magnitude.hiddenBit && Magnitude.leastExponent < exponent
  let up := Nat.pow 2 exponent.toNat
  { low := (4 * mantissa - if narrow then 1 else 2) * up
    value := 4 * mantissa * up
    high := (4 * mantissa + 2) * up
    unit := 4 * Nat.pow 2 (-exponent).toNat
    closed := mantissa % 2 = 0 }

/-- Measure the interval in units of `10 ^ exponent`. -/
def RoundingInterval.inUnitsOf (i : RoundingInterval) (exponent : Int) : RoundingInterval :=
  let up := Nat.pow 10 (-exponent).toNat
  { i with
    low := i.low * up
    value := i.value * up
    high := i.high * up
    unit := i.unit * Nat.pow 10 exponent.toNat }

/-- Whether the natural number `n` lies in the interval. -/
def RoundingInterval.contains (i : RoundingInterval) (n : Nat) : Bool :=
  let point := n * i.unit
  if i.closed then i.low ≤ point && point ≤ i.high else i.low < point && point < i.high

/-- The natural number nearest to the double among its two neighbours inside the
interval, the upper one on a tie. -/
def RoundingInterval.nearest? (i : RoundingInterval) : Option Nat :=
  let below := i.value / i.unit
  let above := below + 1
  match i.contains below, i.contains above with
  | true, true =>
      if 2 * i.value < (below + above) * i.unit then some below else some above
  | true, false => some below
  | false, true => some above
  | false, false => none

/-! ## The search over grids -/

/-- Try `fuel` grids from `10 ^ exponent` downwards. -/
def searchGrids (i : RoundingInterval) : Nat → Int → Option (Nat × Int)
  | 0, _ => none
  | fuel + 1, exponent =>
      match (i.inUnitsOf exponent).nearest? with
      | some digits => some (digits, exponent)
      | none => searchGrids i fuel (exponent - 1)

/-- A power of ten that is not below `mantissa · 2 ^ exponent`: a binary digit is
less than `0.30103` decimal digits. -/
def gridBound (mantissa : Nat) (exponent : Int) : Int :=
  (Nat.log2 mantissa + 1 + exponent) * 30103 / 100000 + 1

/-- Seventeen digits always read back, and the search starts at most two grids
above the first digit. -/
def gridFuel : Nat :=
  24

/-- The shortest decimal that reads back as the positive double
`mantissa · 2 ^ exponent`. -/
def shortest (negative : Bool) (mantissa : Nat) (exponent : Int) : Decimal :=
  let found := searchGrids (RoundingInterval.ofMagnitude mantissa exponent) gridFuel
    (gridBound mantissa exponent)
  match found with
  | some (digits, power) => ⟨negative, digits, power⟩
  | none => ⟨negative, 0, 0⟩

/-! ## Plain notation -/

/-- Digits with a point where the exponent puts it and zeros where there is no
digit; never an exponent. -/
def plainText (digits : Nat) (exponent : Int) : String :=
  let written := digitChars digits
  match exponent with
  | .ofNat n => String.ofList (written ++ List.replicate n '0')
  | .negSucc n =>
      let places := n + 1
      let padded := List.replicate (places + 1 - written.length) '0' ++ written
      let whole := padded.length - places
      String.ofList (padded.take whole ++ '.' :: padded.drop whole)

/-- The sign of a negative number. -/
def signText (negative : Bool) : String :=
  if negative then "-" else ""

/-- A double in plain notation with the fewest digits that read back. -/
def floatText (x : Float) : String :=
  match Magnitude.ofFloat x with
  | .nan => "NaN"
  | .infinite negative => signText negative ++ "inf"
  | .finite negative 0 _ => signText negative ++ "0"
  | .finite negative mantissa exponent =>
      let d := shortest negative mantissa exponent
      signText negative ++ plainText d.digits d.exponent

end CameraMotion.Decimal
