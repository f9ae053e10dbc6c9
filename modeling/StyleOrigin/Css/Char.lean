import StyleOrigin.Text.Basic

/-!
The character classes of stylesheet syntax, and the look-ahead tests built on them.

* `isNameChar_of_isNameStart`: whatever starts a name may also continue it.
-/
set_option autoImplicit false

namespace StyleOrigin.Css

/-! ## Classes -/

/-- White space: the line ends are unified before this is asked. -/
def isWhitespace (c : Char) : Bool :=
  c == ' ' || c == '\n' || c == '\t'

def isBeyondAscii (c : Char) : Bool :=
  0x7F < c.toNat

def isNameStart (c : Char) : Bool :=
  c.isAlpha || c == '_' || isBeyondAscii c

def isNameChar (c : Char) : Bool :=
  isNameStart c || c.isDigit || c == '-'

def isHexDigit (c : Char) : Bool :=
  c.isDigit || ('a' ≤ c && c ≤ 'f') || ('A' ≤ c && c ≤ 'F')

/-- A control character that may not stand bare in a `url(...)`. -/
def isUrlControl (c : Char) : Bool :=
  let n := c.toNat
  n ≤ 0x08 || n == 0x0B || (0x0E ≤ n && n ≤ 0x1F) || n == 0x7F

def hexDigitValue (c : Char) : Nat :=
  if c.isDigit then c.toNat - '0'.toNat
  else if 'a' ≤ c then c.toNat - 'a'.toNat + 10
  else c.toNat - 'A'.toNat + 10

def hexValue (digits : Text) : Nat :=
  digits.foldl (fun value digit => value * 16 + hexDigitValue digit) 0

/-! ## Look-ahead -/

/-- Whether an escape starts here: a backslash, unless a line feed follows it. -/
def startsEscape : Text → Bool
  | '\\' :: '\n' :: _ => false
  | '\\' :: _ => true
  | _ => false

/-- Whether a name starts here, escapes included. -/
def startsName : Text → Bool
  | [] => false
  | c :: cs => isNameStart c || startsEscape (c :: cs)

/-- Whether an identifier starts here: a name, or a hyphen before a name or another hyphen. -/
def startsIdent : Text → Bool
  | '-' :: '-' :: _ => true
  | '-' :: cs => startsName cs
  | cs => startsName cs

theorem isNameChar_of_isNameStart {c : Char} (h : isNameStart c = true) : isNameChar c = true := by
  simp [isNameChar, h]

end StyleOrigin.Css
