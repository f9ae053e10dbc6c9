import StyleOrigin.Css.Char

/-!
The pieces of a source text that are longer than one character: escapes, names, strings, addresses,
numerals, code point ranges and comments. Each function looks at a text that starts where the piece
starts and says what the piece stands for and how many characters it takes.

Where an escape takes several characters, the scan carries the number of characters still to pass
over, so that each scan is one structural walk along the text.
-/
set_option autoImplicit false

namespace StyleOrigin.Css

/-! ## Escapes and names -/

/-- The character that a code point escape stands for: U+FFFD if there is no such character. Texts hold no
surrogates, so the escapes of U+D800 to U+DFFF stand for U+FFFD as well. -/
def escapedChar (code : Nat) : Char :=
  if code = 0 || 0x10FFFF < code || (0xD800 ≤ code && code ≤ 0xDFFF) then '\uFFFD'
  else Char.ofNat code

/-- The character that the escape after a backslash stands for, and how many characters it takes: up
to six hexadecimal digits with one white space, or else the next character itself. -/
def scanEscape (text : Text) : Char × Nat :=
  let digits := (text.take 6).takeWhile isHexDigit
  match digits, text with
  | _ :: _, _ =>
    let gap := if ((text.drop digits.length).head?.map isWhitespace).getD false then 1 else 0
    (escapedChar (hexValue digits), digits.length + gap)
  | [], c :: _ => (c, 1)
  | [], [] => ('\uFFFD', 0)

/-- The name at the start of a text, when its first `skip` characters are passed over. -/
def scanNameFrom : Nat → Text → Text × Nat
  | skip + 1, _ :: cs => (scanNameFrom skip cs).map id (· + 1)
  | _, [] => ([], 0)
  | 0, c :: cs =>
    if isNameChar c then (scanNameFrom 0 cs).map (c :: ·) (· + 1)
    else if startsEscape (c :: cs) then
      let escape := scanEscape cs
      (scanNameFrom escape.2 cs).map (escape.1 :: ·) (· + 1)
    else ([], 0)

/-- The name at the start of a text, escapes resolved, and how many characters it takes. -/
def scanName (text : Text) : Text × Nat :=
  scanNameFrom 0 text

/-! ## Strings -/

/-- How a string or an address ends: with its closing mark, with the source, or at a character that
may not stand in it. -/
inductive Ending
  | closed
  | unclosed
  | bad
deriving DecidableEq, Repr

/-- What a scan of a string or an address found. -/
structure Quotation where
  value : Text
  ending : Ending
  length : Nat
deriving DecidableEq, Repr

/-- The same piece with one more character of the source in front of it. -/
def Quotation.pass (quotation : Quotation) : Quotation :=
  ⟨quotation.value, quotation.ending, quotation.length + 1⟩

/-- The same piece with one more character of the source in front of it, which stands for `c`. -/
def Quotation.push (c : Char) (quotation : Quotation) : Quotation :=
  ⟨c :: quotation.value, quotation.ending, quotation.length + 1⟩

/-- The rest of a string, when the first `skip` characters are passed over. -/
def scanStringFrom (mark : Char) : Nat → Text → Quotation
  | skip + 1, _ :: cs => (scanStringFrom mark skip cs).pass
  | _, [] => ⟨[], .unclosed, 0⟩
  | 0, c :: cs =>
    if c = mark then ⟨[], .closed, 1⟩
    else if c = '\n' then ⟨[], .bad, 0⟩
    else if c = '\\' then
      match cs.head? with
      | none => ⟨[], .unclosed, 1⟩
      | some '\n' => (scanStringFrom mark 1 cs).pass
      | some _ =>
        let escape := scanEscape cs
        (scanStringFrom mark escape.2 cs).push escape.1
    else (scanStringFrom mark 0 cs).push c

/-- The rest of a string behind its opening mark. A backslash before a line feed or at the end of the
source is dropped; a bare line feed spoils the string and is not taken. -/
def scanString (mark : Char) (text : Text) : Quotation :=
  scanStringFrom mark 0 text

/-! ## Addresses -/

/-- How many characters remain of a spoiled address: up to and with the next round closer that no
backslash stands before. -/
def badUrlLength : Text → Nat
  | [] => 0
  | '\\' :: ')' :: cs => badUrlLength cs + 2
  | c :: cs => if c = ')' then 1 else badUrlLength cs + 1

/-- The rest of an address behind its leading white space, when the first `skip` characters are passed
over. -/
def scanUrlFrom : Nat → Text → Quotation
  | skip + 1, _ :: cs => (scanUrlFrom skip cs).pass
  | _, [] => ⟨[], .unclosed, 0⟩
  | 0, c :: cs =>
    if c = ')' then ⟨[], .closed, 1⟩
    else if isWhitespace c then
      let gap := (cs.takeWhile isWhitespace).length
      match cs.drop gap with
      | [] => ⟨[], .unclosed, gap + 1⟩
      | d :: ds =>
        if d = ')' then ⟨[], .closed, gap + 2⟩
        else ⟨[], .bad, gap + 1 + badUrlLength (d :: ds)⟩
    else if startsEscape (c :: cs) then
      let escape := scanEscape cs
      (scanUrlFrom escape.2 cs).push escape.1
    else if c = '"' || c = '\'' || c = '(' || isUrlControl c then ⟨[], .bad, 1 + badUrlLength cs⟩
    else (scanUrlFrom 0 cs).push c

/-- The rest of an address behind its opening bracket. -/
def scanUrl (text : Text) : Quotation :=
  let gap := (text.takeWhile isWhitespace).length
  let found := scanUrlFrom 0 (text.drop gap)
  { found with length := gap + found.length }

/-! ## Numerals -/

def scanSign : Text → Text
  | c :: _ => if c = '+' || c = '-' then [c] else []
  | [] => []

/-- The point and the digits behind it at the start of a text, if both are there. -/
def scanFraction : Text → Text
  | '.' :: cs =>
    match cs.takeWhile Char.isDigit with
    | [] => []
    | digits => '.' :: digits
  | _ => []

/-- The exponent at the start of a text: its letter, its sign and at least one digit. -/
def scanExponent : Text → Text
  | c :: cs =>
    if c = 'e' || c = 'E' then
      let sign := scanSign cs
      match (cs.drop sign.length).takeWhile Char.isDigit with
      | [] => []
      | digits => c :: sign ++ digits
    else []
  | [] => []

def scanNumeral (text : Text) : Option Text :=
  let sign := scanSign text
  let unsigned := text.drop sign.length
  let whole := unsigned.takeWhile Char.isDigit
  let fraction := scanFraction (unsigned.drop whole.length)
  let digits := whole ++ fraction
  if digits.isEmpty then none
  else some (sign ++ digits ++ scanExponent (unsigned.drop digits.length))

/-- The number of digits of a numeral that has neither a point nor an exponent. -/
def integerDigits? (numeral : Text) : Option Nat :=
  let digits := numeral.drop (scanSign numeral).length
  if digits.all Char.isDigit then some digits.length else none

/-! ## Code point ranges -/

/-- A code point range behind its letter and plus sign: first and last code point, and how many
characters it takes. Question marks stand for any digit; there are at most six digits and marks. -/
def scanUnicodeRange (text : Text) : Nat × Nat × Nat :=
  let digits := (text.take 6).takeWhile isHexDigit
  let marks := ((text.drop digits.length).take (6 - digits.length)).takeWhile (· == '?')
  let taken := digits.length + marks.length
  if !marks.isEmpty then
    (hexValue (digits ++ marks.map fun _ => '0'), hexValue (digits ++ marks.map fun _ => 'F'), taken)
  else
    match text.drop taken with
    | '-' :: cs =>
      match (cs.take 6).takeWhile isHexDigit with
      | [] => (hexValue digits, hexValue digits, taken)
      | last => (hexValue digits, hexValue last, taken + 1 + last.length)
    | _ => (hexValue digits, hexValue digits, taken)

/-! ## Comments -/

/-- The rest of a comment behind its opening pair: its text, and how many characters it takes. -/
def scanComment : Text → Text × Nat
  | [] => ([], 0)
  | '*' :: '/' :: _ => ([], 2)
  | c :: cs => (scanComment cs).map (c :: ·) (· + 1)

end StyleOrigin.Css
