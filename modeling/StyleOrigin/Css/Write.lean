import StyleOrigin.Css.Name
import StyleOrigin.Css.Rule

/-!
Writing tokens and rules. Between two tokens that would read as one, or as something else, an empty
comment is put.

* `Token.kind`, `Kind.needsComment`: the pairs of neighbours that an empty comment keeps apart.
* `writeTokens`: a sequence of tokens.
* `Rule.write`, `AtRule.write`: total on rules.
* `Node.write`: fails on a rule without a block only.
-/
set_option autoImplicit false

namespace StyleOrigin.Css

/-! ## Neighbours -/

/-- What decides whether two neighbouring tokens must be kept apart. -/
inductive Kind
  | ident
  | atKeyword
  | hash
  | number
  | percentage
  | dimension
  | unicodeRange
  | function
  | url
  | round
  | literal (text : Text)
  | other
deriving DecidableEq, Repr

def Token.kind : Token → Kind
  | .leaf _ (.ident _) => .ident
  | .leaf _ (.atKeyword _) => .atKeyword
  | .leaf _ (.hash _ _) => .hash
  | .leaf _ (.number _) => .number
  | .leaf _ (.percentage _) => .percentage
  | .leaf _ (.dimension _ _) => .dimension
  | .leaf _ (.unicodeRange _ _) => .unicodeRange
  | .leaf _ (.url _ _) => .url
  | .leaf _ (.literal text) => .literal text
  | .group _ (.function _) _ => .function
  | .group _ (.bracket .round) _ => .round
  | _ => .other

namespace Kind

def isOneOf (marks : List Char) : Kind → Bool
  | literal [c] => marks.contains c
  | _ => false

/-- Whether a kind is the literal that once closed a comment around a whole stylesheet. -/
def isClosingMark (kind : Kind) : Bool :=
  kind == literal "-->"

def endsInName : Kind → Bool
  | ident | atKeyword | hash | dimension => true
  | _ => false

/-- Kinds that start like an identifier and can be taken for a longer one. -/
def startsLikeIdent : Kind → Bool
  | ident | function | url => true
  | _ => false

def startsWithNumeral : Kind → Bool
  | number | percentage | dimension => true
  | _ => false

/-- Whether a token of the first kind in front of one of the second must be kept apart from it. -/
def needsComment (before after : Kind) : Bool :=
  let wordlike := after.startsLikeIdent || after.startsWithNumeral || after == unicodeRange
  (before.endsInName && (wordlike || after.isOneOf ['-'] || after.isClosingMark))
    || (before == ident && after == round)
    || ((before.isOneOf ['#', '-'] || before == number) && wordlike)
    || (before.isOneOf ['@']
      && (after.startsLikeIdent || after == unicodeRange || after.isOneOf ['-']))
    || ((before == unicodeRange || before.isOneOf ['.', '+']) && after.startsWithNumeral)
    || (before == unicodeRange && (after == ident || after == function || after.isOneOf ['?']))
    || (before.isOneOf ['$', '*', '^', '~', '|'] && after.isOneOf ['='])
    || (before.isOneOf ['|'] && after.isOneOf ['|'])
    || (before.isOneOf ['/'] && after.isOneOf ['*'])

end Kind

def Token.startsWithLineFeed : Token → Bool
  | .leaf _ (.whitespace ('\n' :: _)) => true
  | _ => false

/-- What is written in front of a token, behind one of a given kind: an empty comment where the two
must be kept apart, and a line feed behind a lone backslash. -/
def separator (before : Option Kind) (token : Token) : Text :=
  match before with
  | none => []
  | some before =>
    if before.needsComment token.kind then "/**/"
    else if before = .literal ['\\'] && !token.startsWithLineFeed then ['\n']
    else []

/-! ## Tokens -/

/-- What stands for a flaw. What the end of the source cut short needs no mark. -/
def Flaw.write : Flaw → Text
  | .badString => "\"[bad string]\n"
  | .badUrl => "url([bad url])"
  | .unclosedString => []
  | .unclosedUrl => []
  | .unmatched bracket => [bracket.closer]

/-- A code point range; one code point is written once. -/
def writeUnicodeRange (first last : Nat) : Text :=
  let hex (n : Nat) := Text.upper (Text.ofNatHex n)
  if first = last then "U+" ++ hex first else "U+" ++ hex first ++ '-' :: hex last

/-- A leaf. Strings are written between double marks, and what was not closed stays so. -/
def Leaf.write : Leaf → Text
  | .whitespace text => text
  | .literal text => text
  | .comment text => "/*" ++ text ++ "*/"
  | .ident name => encodeIdent name
  | .atKeyword name => '@' :: encodeIdent name
  | .hash name isIdent => '#' :: (if isIdent then encodeIdent name else encodeName name)
  | .string value closed => '"' :: encodeString value ++ (if closed then ['"'] else [])
  | .url value closed => "url(" ++ encodeUrl value ++ (if closed then [')'] else [])
  | .number numeral => numeral
  | .percentage numeral => numeral ++ ['%']
  | .dimension numeral unit => numeral ++ encodeUnit unit
  | .unicodeRange first last => writeUnicodeRange first last
  | .flaw fault => fault.write

mutual

/-- Whether a token is a flaw of an unclosed string, or a function that ends in one. -/
def Token.endsUnclosed : Token → Bool
  | .leaf _ (.flaw .unclosedString) => true
  | .group _ (.function _) content => lastEndsUnclosed content
  | _ => false

def lastEndsUnclosed : List Token → Bool
  | [] => false
  | [token] => token.endsUnclosed
  | _ :: rest => lastEndsUnclosed rest

end

mutual

/-- A token. A function whose last argument ends in an unclosed string is left open. -/
def Token.write : Token → Text
  | .leaf _ value => value.write
  | .group _ (.bracket bracket) content =>
    bracket.opener :: writeTokensFrom none content ++ [bracket.closer]
  | .group _ (.function name) content =>
    encodeIdent name ++ '(' :: writeTokensFrom none content
      ++ (if lastEndsUnclosed content then [] else [')'])

def writeTokensFrom : Option Kind → List Token → Text
  | _, [] => []
  | before, token :: rest =>
    separator before token ++ token.write ++ writeTokensFrom (some token.kind) rest

end

def writeTokens (tokens : List Token) : Text :=
  writeTokensFrom none tokens

/-! ## Rules -/

def writeBlock (body : List Token) : Text :=
  '{' :: writeTokens body ++ ['}']

def Rule.write (rule : Rule) : Text :=
  writeTokens rule.prelude ++ writeBlock rule.body

/-- An at-rule, with its block or a semicolon. -/
def AtRule.write (rule : AtRule) : Text :=
  '@' :: encodeIdent rule.keyword ++ writeTokens rule.prelude
    ++ (match rule.body with
      | some body => writeBlock body
      | none => [';'])

inductive WriteFault
  | blockless
deriving DecidableEq, Repr

def WriteFault.message : WriteFault → Text
  | .blockless => "Can not serialize <ParseError invalid>"

/-- What the position of a blockless rule is reported with. -/
def blocklessMessage : Text :=
  "EOF reached before \x7b\x7d block for a qualified rule."

def Node.write : Node → Except WriteFault Text
  | .styleRule rule => .ok rule.write
  | .atRule rule => .ok rule.write
  | .blockless _ => .error .blockless

def writeNodes (nodes : List Node) : Except WriteFault Text :=
  List.flatten <$> nodes.mapM Node.write

end StyleOrigin.Css
