import StyleOrigin.Sequence

/-!
Text as a list of characters, and the few operations on it that every part of the library shares:
cutting at a character, joining, comparing, decimal and hexadecimal numerals, and one form for line ends.

* `Text.splitOn`, `Text.joinWith`: the pieces between a character, and pieces joined by a text.
* `Text.isAtMost`: the order of code points.
* `Text.ofNat`, `Text.ofInt`, `Text.ofNatHex`: numerals.
* `Text.unifyLineEnds`: each carriage return, alone or before a line feed, made one line feed.
-/
set_option autoImplicit false

namespace StyleOrigin

abbrev Text := List Char

/-- A string literal may stand where a text is expected. -/
instance : Coe String Text := ⟨String.toList⟩

namespace Text

/-! ## Cutting and joining -/

def splitOn (cut : Char) (text : Text) : List Text :=
  splitWhere (· == cut) text

def joinWith (separator : Text) (pieces : List Text) : Text :=
  List.intercalate separator pieces

/-- Whether a text is another or stands before it, in the order of code points. -/
def isAtMost (text other : Text) : Bool :=
  !List.lex other text fun c d => c < d

/-- The number of bytes of a text in UTF-8. -/
def utf8Length (text : Text) : Nat :=
  text.foldl (fun count c => count + c.utf8Size) 0

/-! ## Numerals -/

def ofNat (n : Nat) : Text :=
  Nat.toDigits 10 n

/-- The decimal numeral of an integer, with a minus sign when it is negative. -/
def ofInt : Int → Text
  | .ofNat n => ofNat n
  | .negSucc n => '-' :: ofNat (n + 1)

def ofNatHex (n : Nat) : Text :=
  Nat.toDigits 16 n

def zeroPadded (width : Nat) (numeral : Text) : Text :=
  List.replicate (width - numeral.length) '0' ++ numeral

/-! ## Case and line ends -/

def lower (text : Text) : Text :=
  text.map Char.toLower

def upper (text : Text) : Text :=
  text.map Char.toUpper

/-- The text with each carriage return, alone or before a line feed, made one line feed. -/
def unifyLineEnds : Text → Text
  | [] => []
  | '\r' :: '\n' :: cs => '\n' :: unifyLineEnds cs
  | c :: cs => (if c = '\r' then '\n' else c) :: unifyLineEnds cs

end Text
end StyleOrigin
