import StyleOrigin.Text.Basic

/-!
Double-precision numbers as exact data: a sign, a whole number and a power of two. Nothing here is
computed in machine arithmetic, so every step can be reasoned about.

* `Double`: a number `± mantissa · 2 ^ exponent`, an infinity, or not a number.
* `Double.nearest`: the double nearest to a fraction; of two at the same distance, the even one.
* `Double.isAtMostZero`: whether a number is zero or below.
-/
set_option autoImplicit false

namespace StyleOrigin

/-- A double-precision number. A finite one has a mantissa below `2 ^ 53` and an exponent of at least
`-1074`, and unless the exponent is the least the mantissa is at least `2 ^ 52`. -/
inductive Double
  | finite (negative : Bool) (mantissa : Nat) (exponent : Int)
  | infinite (negative : Bool)
  | nan
deriving DecidableEq, Repr

/-- Two to the power of an exponent, as numerator and denominator. -/
def powerOfTwo (exponent : Int) : Nat × Nat :=
  (Nat.pow 2 exponent.toNat, Nat.pow 2 (-exponent).toNat)

/-- The quotient rounded to the nearest whole number; of two at the same distance, the even one. -/
def divRoundEven (numerator denominator : Nat) : Nat :=
  let quotient := numerator / denominator
  let twice := 2 * (numerator % denominator)
  if denominator < twice || (twice = denominator && quotient % 2 = 1) then quotient + 1 else quotient

namespace Double

/-- The least exponent, and the greatest. -/
def leastExponent : Int := -1074
def greatestExponent : Int := 971

def zero (negative : Bool) : Double :=
  finite negative 0 leastExponent

/-- The exponent at which the mantissa of a fraction has 53 binary digits, or the least one. -/
def exponentOf (numerator denominator : Nat) : Int :=
  let guess : Int := (numerator.log2 : Int) - (denominator.log2 : Int)
  let power := powerOfTwo guess
  let exponent := if numerator * power.2 < denominator * power.1 then guess - 53 else guess - 52
  max leastExponent exponent

def nearest (negative : Bool) (numerator denominator : Nat) : Double :=
  if numerator = 0 then zero negative
  else
    let exponent := exponentOf numerator denominator
    let power := powerOfTwo exponent
    let mantissa := divRoundEven (numerator * power.2) (denominator * power.1)
    let carried := mantissa = Nat.pow 2 53
    let mantissa := if carried then Nat.pow 2 52 else mantissa
    let exponent := if carried then exponent + 1 else exponent
    if greatestExponent < exponent then infinite negative else finite negative mantissa exponent

/-- The double nearest to a decimal `digits · 10 ^ scale`. What is far beyond the range of doubles is
recognised by its number of digits alone. -/
def ofDecimal (negative : Bool) (digits : Nat) (scale : Int) : Double :=
  let magnitude : Int := scale + (Text.ofNat digits).length
  if digits = 0 || magnitude < -330 then zero negative
  else if 310 < magnitude then infinite negative
  else nearest negative (digits * Nat.pow 10 scale.toNat) (Nat.pow 10 (-scale).toNat)

/-- Whether a number is zero or below, which is what a lower limit of zero refuses. What is no number is
not refused. -/
def isAtMostZero : Double → Bool
  | finite negative mantissa _ => negative || mantissa = 0
  | infinite negative => negative
  | nan => false

end Double
end StyleOrigin
