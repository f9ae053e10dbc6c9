import StyleOrigin.Css.Scan
import StyleOrigin.Css.Token

/-!
Lexemes: the flat sequence that a source text is cut into before its brackets are matched.

* `Lexeme.next`: what stands at the start of a text, and how many further characters it takes.
* `lexemes`: all lexemes of a text, each with the position of its first character.
* `cleaned`: the one form of line ends and of the character U+0000 that reading starts from.
-/
set_option autoImplicit false

namespace StyleOrigin.Css

/-- A piece of the flat sequence: a leaf, or the start or the end of a group. -/
inductive Lexeme
  | leaf (value : Leaf)
  | opens (opening : Opening)
  | closes (bracket : Bracket)
deriving DecidableEq, Repr

/-- What stands at the start of a text: its lexemes, and how many characters they take besides the
first. A piece that the end of the source cuts short brings a flaw of its own. -/
structure Step where
  lexemes : List Lexeme
  more : Nat
deriving DecidableEq, Repr

namespace Step

def leaf (value : Leaf) (more : Nat) : Step :=
  ⟨[.leaf value], more⟩

def literal (text : Text) : Step :=
  leaf (.literal text) (text.length - 1)

/-- The step of a string or an address, made from its value and whether it is closed. -/
def quotation (found : Quotation) (taken : Nat) (make : Text → Bool → Leaf) (unclosed bad : Flaw) :
    Step :=
  match found.ending with
  | .closed => ⟨[.leaf (make found.value true)], taken + found.length⟩
  | .unclosed => ⟨[.leaf (make found.value false), .leaf (.flaw unclosed)], taken + found.length⟩
  | .bad => ⟨[.leaf (.flaw bad)], taken + found.length⟩

/-- The step at an identifier: a function or an address if a round bracket follows. Only a bare
address is read as one; a quoted one is an ordinary argument. -/
def ident (text : Text) : Step :=
  let name := scanName text
  match text.drop name.2 with
  | '(' :: cs =>
    let argument := cs.dropWhile isWhitespace
    if Text.lower name.1 = "url" && argument.head? ≠ some '"' && argument.head? ≠ some '\'' then
      quotation (scanUrl cs) name.2 .url .unclosedUrl .badUrl
    else ⟨[.opens (.function name.1)], name.2⟩
  | _ => leaf (.ident name.1) (name.2 - 1)

/-- The step at a numeral: what follows it makes it a dimension, a percentage or a number. -/
def numeral (text : Text) (numeral : Text) : Step :=
  let rest := text.drop numeral.length
  if startsIdent rest then
    let unit := scanName rest
    leaf (.dimension numeral unit.1) (numeral.length - 1 + unit.2)
  else if rest.head? = some '%' then leaf (.percentage numeral) numeral.length
  else leaf (.number numeral) (numeral.length - 1)

def mark (c : Char) (cs : Text) : Step :=
  match c, cs with
  | '@', cs =>
    if startsIdent cs then
      let name := scanName cs
      leaf (.atKeyword name.1) name.2
    else literal ['@']
  | '#', cs =>
    if (cs.head?.map isNameChar).getD false || startsEscape cs then
      let name := scanName cs
      leaf (.hash name.1 (startsIdent cs)) name.2
    else literal ['#']
  | '{', _ => ⟨[.opens (.bracket .curly)], 0⟩
  | '[', _ => ⟨[.opens (.bracket .square)], 0⟩
  | '(', _ => ⟨[.opens (.bracket .round)], 0⟩
  | '}', _ => ⟨[.closes .curly], 0⟩
  | ']', _ => ⟨[.closes .square], 0⟩
  | ')', _ => ⟨[.closes .round], 0⟩
  | '"', cs => quotation (scanString '"' cs) 0 .string .unclosedString .badString
  | '\'', cs => quotation (scanString '\'' cs) 0 .string .unclosedString .badString
  | '/', '*' :: cs =>
    let comment := scanComment cs
    leaf (.comment comment.1) (comment.2 + 1)
  | '<', '!' :: '-' :: '-' :: _ => literal "<!--"
  | '|', '|' :: _ => literal "||"
  | '~', '=' :: _ => literal "~="
  | '|', '=' :: _ => literal "|="
  | '^', '=' :: _ => literal "^="
  | '$', '=' :: _ => literal "$="
  | '*', '=' :: _ => literal "*="
  | c, _ => literal [c]

end Step

/-- Whether a code point range starts here: the letter U, a plus sign, and a digit or question mark. -/
def startsUnicodeRange : Text → Bool
  | u :: '+' :: d :: _ => (u == 'U' || u == 'u') && (isHexDigit d || d == '?')
  | _ => false

/-- Whether the mark that once closed a comment around a whole stylesheet starts here. -/
def startsClosingMark : Text → Bool
  | '-' :: '-' :: '>' :: _ => true
  | _ => false

/-- What stands at the start of a text that begins with `c`. -/
def Lexeme.next (c : Char) (cs : Text) : Step :=
  if isWhitespace c then
    let run := cs.takeWhile isWhitespace
    .leaf (.whitespace (c :: run)) run.length
  else if startsUnicodeRange (c :: cs) then
    let range := scanUnicodeRange (cs.drop 1)
    .leaf (.unicodeRange range.1 range.2.1) (range.2.2 + 1)
  else if startsClosingMark (c :: cs) then .literal "-->"
  else if startsIdent (c :: cs) then .ident (c :: cs)
  else
    match scanNumeral (c :: cs) with
    | some numeral => .numeral (c :: cs) numeral
    | none => .mark c cs

/-- The lexemes of a text that starts at a position, when its first `skip` characters are passed
over. -/
def lexemesFrom : Nat → Position → Text → List (Position × Lexeme)
  | _, _, [] => []
  | skip + 1, position, c :: cs => lexemesFrom skip (position.after c) cs
  | 0, position, c :: cs =>
    let step := Lexeme.next c cs
    step.lexemes.map (position, ·) ++ lexemesFrom step.more (position.after c) cs

/-- The source text that reading starts from: U+0000 is replaced by U+FFFD, and each line end is one
line feed. -/
def cleaned (source : Text) : Text :=
  (Text.unifyLineEnds (source.map fun c => if c = '\x00' then '\uFFFD' else c)).map
    fun c => if c = '\x0C' then '\n' else c

def lexemes (source : Text) : List (Position × Lexeme) :=
  lexemesFrom 0 .start (cleaned source)

end StyleOrigin.Css
