import StyleOrigin.Text.Basic

/-!
Tokens: the leaves of stylesheet syntax, and the groups that brackets and functions make of them.

* `Leaf`, `Opening`, `Token`: what a stylesheet is made of, each token with its position.
* `Token.isLiteral`, `Token.isGap`, `Token.curlyContent?`: the questions that the rule reader asks.
-/
set_option autoImplicit false

namespace StyleOrigin.Css

/-! ## Positions -/

/-- A place in a source text: its line, and its column in characters, both counted from one. -/
structure Position where
  line : Nat
  column : Nat
deriving DecidableEq, Repr, Inhabited

def Position.start : Position :=
  ⟨1, 1⟩

def Position.after (position : Position) (c : Char) : Position :=
  if c = '\n' then ⟨position.line + 1, 1⟩ else ⟨position.line, position.column + 1⟩

/-! ## Leaves -/

inductive Bracket
  | curly
  | square
  | round
deriving DecidableEq, Repr

def Bracket.opener : Bracket → Char
  | .curly => '{'
  | .square => '['
  | .round => '('

def Bracket.closer : Bracket → Char
  | .curly => '}'
  | .square => ']'
  | .round => ')'

/-- What is wrong at a place of the source; reading goes on behind it. -/
inductive Flaw
  | badString
  | badUrl
  | unclosedString
  | unclosedUrl
  | unmatched (bracket : Bracket)
deriving DecidableEq, Repr

/-- A token that holds no other token. Names and strings are kept with their escapes resolved, numbers
as they were written. -/
inductive Leaf
  | whitespace (text : Text)
  | literal (text : Text)
  | comment (text : Text)
  | ident (name : Text)
  | atKeyword (name : Text)
  | hash (name : Text) (isIdent : Bool)
  | string (value : Text) (closed : Bool)
  | url (value : Text) (closed : Bool)
  | number (numeral : Text)
  | percentage (numeral : Text)
  | dimension (numeral : Text) (unit : Text)
  | unicodeRange (first : Nat) (last : Nat)
  | flaw (flaw : Flaw)
deriving DecidableEq, Repr

/-! ## Groups -/

/-- What opens a group: a bracket, or a function name with its round bracket. -/
inductive Opening
  | bracket (bracket : Bracket)
  | function (name : Text)
deriving DecidableEq, Repr

def Opening.closedBy : Opening → Bracket
  | .bracket kind => kind
  | .function _ => .round

/-- A token: a leaf, or a group with its content. -/
inductive Token
  | leaf (position : Position) (value : Leaf)
  | group (position : Position) (opening : Opening) (content : List Token)
deriving Repr

namespace Token

def position : Token → Position
  | leaf position _ => position
  | group position _ _ => position

def isLiteral (text : Text) : Token → Bool
  | leaf _ (.literal found) => found == text
  | _ => false

def isGap : Token → Bool
  | leaf _ (.whitespace _) => true
  | leaf _ (.comment _) => true
  | _ => false

def curlyContent? : Token → Option (List Token)
  | group _ (.bracket .curly) content => some content
  | _ => none

end Token
end StyleOrigin.Css
