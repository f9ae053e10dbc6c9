import StyleOrigin.Number.Double

/-!
The shortest decimal numeral of a double: the fewest digits that read back as the same number, and of
those the nearest.

* `Double.shortestDigits`: those digits, with the place of the point.
* `Double.toText`: the numeral, positional in the middle range and with an exponent outside it.
-/
set_option autoImplicit false

namespace StyleOrigin.Double

/-! ## Digits -/

/-- A number with the distances to the ends of the interval that reads back as it, all over one
denominator; the ends belong to the interval if the mantissa is even. -/
structure Neighbourhood where
  value : Nat
  below : Nat
  above : Nat
  denominator : Nat
  withEnds : Bool

/-- The neighbourhood of a finite number. Below a power of two the next number is half as far. -/
def neighbourhood (mantissa : Nat) (exponent : Int) : Neighbourhood :=
  let power := powerOfTwo exponent
  let near := mantissa = Nat.pow 2 52 && leastExponent < exponent
  ⟨4 * mantissa * power.1, (if near then 1 else 2) * power.1, 2 * power.1, 4 * power.2,
    mantissa % 2 = 0⟩

/-- The powers of ten by which both sides of a comparison at a scale are multiplied. -/
def scaleFactors (scale : Int) : Nat × Nat :=
  (Nat.pow 10 scale.toNat, Nat.pow 10 (-scale).toNat)

/-- Whether `count · 10 ^ scale` reads back as the number. -/
def Neighbourhood.reads (around : Neighbourhood) (scale : Int) (count : Nat) : Bool :=
  let factors := scaleFactors scale
  let point := count * factors.1 * around.denominator
  let low := (around.value - around.below) * factors.2
  let high := (around.value + around.above) * factors.2
  if around.withEnds then low ≤ point && point ≤ high else low < point && point < high

/-- The multiple of `10 ^ scale` that reads back as the number, if there is one: of two, the nearer,
and of two at the same distance the even one. -/
def Neighbourhood.onGrid? (around : Neighbourhood) (scale : Int) : Option Nat :=
  let factors := scaleFactors scale
  let numerator := around.value * factors.2
  let denominator := around.denominator * factors.1
  let low := numerator / denominator
  match around.reads scale low, around.reads scale (low + 1) with
  | true, true => some (divRoundEven numerator denominator)
  | true, false => some low
  | false, true => some (low + 1)
  | false, false => none

/-- The first grid, from coarse to fine, on which some point reads back as the number. -/
def Neighbourhood.search (around : Neighbourhood) : Nat → Int → Nat × Int
  | 0, scale => (around.value / around.denominator, scale)
  | tries + 1, scale =>
    match around.onGrid? scale with
    | some count => (count, scale)
    | none => around.search tries (scale - 1)

/-- The place of the point of a positive number: it is at least `10 ^ (place - 1)` and below
`10 ^ place`. -/
def pointPlace (value denominator : Nat) : Int :=
  ((Text.ofNat (value * Nat.pow 10 400 / denominator)).length : Int) - 400

def dropTrailingZeros (digits : Text) : Text :=
  (digits.reverse.dropWhile (· == '0')).reverse

/-- The shortest digits of a positive number, and the place of the point before or behind them. -/
def shortestDigits (mantissa : Nat) (exponent : Int) : Text × Int :=
  let around := neighbourhood mantissa exponent
  let found := around.search 17 (pointPlace around.value around.denominator - 1)
  let digits := Text.ofNat found.1
  (dropTrailingZeros digits, digits.length + found.2)

/-! ## Layout -/

/-- The greatest number of digits in front of the point, and the greatest number of zeros behind it,
of a numeral without exponent. -/
def widestWhole : Int := 16
def mostLeadingZeros : Int := 3

/-- A decimal exponent with its sign and at least two digits. -/
def exponentText (exponent : Int) : Text :=
  (if exponent < 0 then '-' else '+') :: Text.zeroPadded 2 (Text.ofNat exponent.natAbs)

/-- Digits with a point at a place. A whole number keeps a zero behind the point. -/
def layout (digits : Text) (place : Int) : Text :=
  if widestWhole < place || place < -mostLeadingZeros then
    let fraction := digits.drop 1
    digits.take 1 ++ (if fraction.isEmpty then [] else '.' :: fraction)
      ++ 'e' :: exponentText (place - 1)
  else if place ≤ 0 then "0." ++ List.replicate (-place).toNat '0' ++ digits
  else
    let width := place.toNat
    let whole := digits.take width ++ List.replicate (width - digits.length) '0'
    let fraction := digits.drop width
    whole ++ '.' :: (if fraction.isEmpty then ['0'] else fraction)

def toText : Double → Text
  | nan => "nan"
  | infinite negative => if negative then "-inf" else "inf"
  | finite negative mantissa exponent =>
    let sign : Text := if negative then ['-'] else []
    if mantissa = 0 then sign ++ "0.0"
    else
      let digits := shortestDigits mantissa exponent
      sign ++ layout digits.1 digits.2

end StyleOrigin.Double
