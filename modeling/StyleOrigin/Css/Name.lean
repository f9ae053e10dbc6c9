import StyleOrigin.Css.Char

/-!
Writing names and quoted values so that reading them gives the same value back: characters that do
not belong to a name are escaped.

* `encodeName`, `encodeIdent`: a name inside a token, and one that starts a token.
* `encodeString`, `encodeUrl`: the inside of a string and of an address.
-/
set_option autoImplicit false

namespace StyleOrigin.Css

/-- The escape of a character by its code point, if the character is a line end. -/
def lineEndEscape? (c : Char) : Option Text :=
  if c = '\n' then some "\\A "
  else if c = '\r' then some "\\D "
  else if c = '\x0C' then some "\\C "
  else none

def encodeNameChar (c : Char) : Text :=
  if isNameChar c then [c]
  else (lineEndEscape? c).getD ['\\', c]

def encodeName (name : Text) : Text :=
  name.flatMap encodeNameChar

/-- The first character of an identifier, a leading hyphen apart: digits are escaped by their code
points. -/
def encodeIdentStart (c : Char) : Text :=
  if isNameStart c then [c]
  else
    match lineEndEscape? c with
    | some escape => escape
    | none =>
      if c.isDigit then '\\' :: Text.upper (Text.ofNatHex c.toNat) ++ [' '] else ['\\', c]

def encodeIdentTail : Text → Text
  | [] => []
  | c :: cs => encodeIdentStart c ++ encodeName cs

def encodeIdent : Text → Text
  | ['-'] => "\\-"
  | '-' :: '-' :: cs => '-' :: '-' :: encodeName cs
  | '-' :: cs => '-' :: encodeIdentTail cs
  | cs => encodeIdentTail cs

def encodeStringChar (c : Char) : Text :=
  if c = '"' || c = '\\' then ['\\', c]
  else (lineEndEscape? c).getD [c]

def encodeString (value : Text) : Text :=
  value.flatMap encodeStringChar

def encodeUrlChar (c : Char) : Text :=
  if c = '\'' || c = '"' || c = '\\' || c = ' ' || c = '(' || c = ')' then ['\\', c]
  else if c = '\t' then "\\9 "
  else (lineEndEscape? c).getD [c]

def encodeUrl (value : Text) : Text :=
  value.flatMap encodeUrlChar

/-- A unit behind a numeral. One that would read as an exponent has its letter escaped. -/
def encodeUnit : Text → Text
  | e :: cs =>
    if (e = 'e' || e = 'E') && (cs.isEmpty || cs.head? = some '-') then "\\65 " ++ encodeName cs
    else encodeIdent (e :: cs)
  | [] => []

end StyleOrigin.Css
