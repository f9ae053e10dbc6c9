import StyleOrigin.Number.Double
import StyleOrigin.Text.Blank

/-!
Reading numbers from a command line: whole numbers and decimals. Blanks around a number are passed
over, digits of any script count, and a single underscore may stand between two digits.

* `OverlongInteger`: a whole number with too many digits.
* `Numeral.readInt?`: a whole number.
* `Numeral.readDouble?`: a decimal, an infinity or not a number.
-/
set_option autoImplicit false

namespace StyleOrigin

/-! ## Overlong integers -/

/-- A whole number has more digits than can be read. -/
structure OverlongInteger where
  digits : Nat
deriving DecidableEq, Repr

namespace OverlongInteger

def limit : Nat := 4300

def ofDigits? (digits : Nat) : Option OverlongInteger :=
  if limit < digits then some ⟨digits⟩ else none

def message (fault : OverlongInteger) : Text :=
  "Exceeds the limit (" ++ Text.ofNat limit
    ++ " digits) for integer string conversion: value has " ++ Text.ofNat fault.digits
    ++ " digits; use sys.set_int_max_str_digits() to increase the limit"

end OverlongInteger

namespace Numeral

/-! ## Digits -/

/-- The zeros of the scripts whose digits are ten code points in a row, as of Unicode 14. -/
def scriptZeros : List Nat :=
  [0x30, 0x660, 0x6F0, 0x7C0, 0x966, 0x9E6, 0xA66, 0xAE6, 0xB66, 0xBE6, 0xC66, 0xCE6, 0xD66, 0xDE6,
   0xE50, 0xED0, 0xF20, 0x1040, 0x1090, 0x17E0, 0x1810, 0x1946, 0x19D0, 0x1A80, 0x1A90, 0x1B50,
   0x1BB0, 0x1C40, 0x1C50, 0xA620, 0xA8D0, 0xA900, 0xA9D0, 0xA9F0, 0xAA50, 0xABF0, 0xFF10, 0x104A0,
   0x10D30, 0x11066, 0x110F0, 0x11136, 0x111D0, 0x112F0, 0x11450, 0x114D0, 0x11650, 0x116C0, 0x11730,
   0x118E0, 0x11950, 0x11C50, 0x11D50, 0x11DA0, 0x16A60, 0x16AC0, 0x16B50, 0x1D7CE, 0x1D7D8, 0x1D7E2,
   0x1D7EC, 0x1D7F6, 0x1E140, 0x1E2F0, 0x1E950, 0x1FBF0]

def plainDigit (c : Char) : Char :=
  match scriptZeros.find? fun first => first ≤ c.toNat && c.toNat ≤ first + 9 with
  | some first => Char.ofNat ('0'.toNat + (c.toNat - first))
  | none => c

/-- The blanks that may stand around a number: all but the four ASCII separators. -/
def isPadding (c : Char) : Bool :=
  Text.isBlank c && !(0x1C ≤ c.toNat && c.toNat ≤ 0x1F)

def plain (text : Text) : Text :=
  (trimWhere isPadding text).map plainDigit

/-- The text without its underscores, if each of them stands between two digits; `before` tells
whether a digit stands in front. -/
def dropUnderscores? : Bool → Text → Option Text
  | _, [] => some []
  | before, c :: cs =>
    if c = '_' then
      if before && (cs.head?.map Char.isDigit).getD false then dropUnderscores? false cs else none
    else (c :: ·) <$> dropUnderscores? c.isDigit cs

def digitsValue (digits : Text) : Nat :=
  digits.foldl (fun value digit => value * 10 + (digit.toNat - '0'.toNat)) 0

def splitSign : Text → Bool × Text
  | '-' :: cs => (true, cs)
  | '+' :: cs => (false, cs)
  | cs => (false, cs)

/-- The digits in front of a text, and what stands behind them. -/
def splitDigits (text : Text) : Text × Text :=
  text.span Char.isDigit

/-! ## Numbers -/

def readInt? (text : Text) : Option Int := do
  let (negative, digits) := splitSign (← dropUnderscores? false (plain text))
  if digits.isEmpty || !digits.all Char.isDigit || OverlongInteger.limit < digits.length then none
  else
    let value : Int := digitsValue digits
    some (if negative then -value else value)

/-- The exponent that a text stands for; no text stands for zero. -/
def readExponent? : Text → Option Int
  | [] => some 0
  | c :: cs =>
    if c = 'e' || c = 'E' then
      let (negative, digits) := splitSign cs
      if digits.isEmpty || !digits.all Char.isDigit then none
      else
        let value : Int := digitsValue digits
        some (if negative then -value else value)
    else none

def readDecimal? (negative : Bool) (text : Text) : Option Double := do
  let (whole, rest) := splitDigits text
  let (fraction, rest) := match rest with
    | '.' :: cs => splitDigits cs
    | _ => ([], rest)
  if whole.isEmpty && fraction.isEmpty then none
  else
    let exponent ← readExponent? rest
    some (.ofDecimal negative (digitsValue (whole ++ fraction)) (exponent - fraction.length))

/-- The double that a text stands for: a decimal, or one of the words for an infinity and for what is
no number, in any case. -/
def readDouble? (text : Text) : Option Double := do
  let (negative, unsigned) := splitSign (← dropUnderscores? false (plain text))
  let word := Text.lower unsigned
  if word = "inf" || word = "infinity" then some (.infinite negative)
  else if word = "nan" then some .nan
  else readDecimal? negative unsigned

end Numeral
end StyleOrigin
