import StyleOrigin.Number.Shortest
import StyleOrigin.Number.Numeral
import StyleOrigin.Text.Quoted

/-!
Time limits in seconds: whole numbers of any size, or doubles.

* `Seconds.ofText`: a limit from its text; plain digits make a whole number.
* `Seconds.toText`: the text of a limit.
-/
set_option autoImplicit false

namespace StyleOrigin

inductive Seconds
  | whole (count : Int)
  | decimal (value : Double)
deriving DecidableEq, Repr

namespace Seconds

/-- Why a text is no limit: a whole number is too long, or the text is no number at all. -/
inductive Unreadable
  | overlong (fault : OverlongInteger)
  | notNumber (text : Text)
deriving DecidableEq, Repr

def Unreadable.message : Unreadable → Text
  | overlong fault => fault.message
  | notNumber text => "could not convert string to float: " ++ Text.quoted text

/-- The sign and the digits of a whole number that is written with plain digits and at most a minus
sign. -/
def wholeDigits? (text : Text) : Option (Bool × Text) :=
  let signed := Numeral.splitSign text
  if text.head? = some '+' || signed.2.isEmpty || !signed.2.all Char.isDigit then none
  else some signed

def ofText (text : Text) : Except Unreadable Seconds :=
  match wholeDigits? text with
  | some (negative, digits) =>
    match OverlongInteger.ofDigits? digits.length with
    | some fault => .error (.overlong fault)
    | none =>
      let count : Int := Numeral.digitsValue digits
      .ok (whole (if negative then -count else count))
  | none =>
    match Numeral.readDouble? text with
    | some value => .ok (decimal value)
    | none => .error (.notNumber text)

def toText : Seconds → Text
  | whole count => Text.ofInt count
  | decimal value => value.toText

def ofNat (count : Nat) : Seconds :=
  decimal (.nearest false count 1)

end Seconds
end StyleOrigin
