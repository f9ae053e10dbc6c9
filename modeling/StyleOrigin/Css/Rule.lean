import StyleOrigin.Css.Nesting

/-!
Rules: what a sequence of tokens says at the level of a stylesheet or of a block.

* `Rule`, `AtRule`, `Node`: style rules, at-rules, and style rules that have no block.
* `nodes`: the nodes of a sequence of tokens.
* `parse`: the nodes of a source text.
-/
set_option autoImplicit false

namespace StyleOrigin.Css

/-- A style rule: the tokens in front of its block, and the content of the block. -/
structure Rule where
  position : Position
  prelude : List Token
  body : List Token
deriving Repr

/-- An at-rule: its keyword, the tokens up to its block or semicolon, and the content of its block if
it has one. -/
structure AtRule where
  position : Position
  keyword : Text
  prelude : List Token
  body : Option (List Token)
deriving Repr

/-- What stands at the level of rules. A style rule that the end of the source leaves without a block
is only a place: that of its last token. -/
inductive Node
  | styleRule (rule : Rule)
  | atRule (rule : AtRule)
  | blockless (position : Position)
deriving Repr

def Node.position : Node → Position
  | .styleRule rule => rule.position
  | .atRule rule => rule.position
  | .blockless position => position

/-! ## From tokens to nodes -/

/-- A rule whose block has not come yet, with the tokens of its prelude, newest first. A style rule
has at least one. -/
inductive Pending
  | styleRule (position : Position) (last : Token) (before : List Token)
  | atRule (position : Position) (keyword : Text) (prelude : List Token)
deriving Repr

namespace Pending

def begin : Token → Pending
  | .leaf position (.atKeyword keyword) => atRule position keyword []
  | token => styleRule token.position token []

def push (token : Token) : Pending → Pending
  | styleRule position last before => styleRule position token (last :: before)
  | atRule position keyword prelude => atRule position keyword (token :: prelude)

/-- The node that a block completes. -/
def complete (body : List Token) : Pending → Node
  | styleRule position last before => .styleRule ⟨position, (last :: before).reverse, body⟩
  | atRule position keyword prelude => .atRule ⟨position, keyword, prelude.reverse, some body⟩

/-- The node that the end of the source leaves. -/
def abandon : Pending → Node
  | styleRule _ last _ => .blockless last.position
  | atRule position keyword prelude => .atRule ⟨position, keyword, prelude.reverse, none⟩

/-- The node that a token completes without a block: a semicolon completes an at-rule. -/
def completedBy? (token : Token) : Pending → Option Node
  | styleRule _ _ _ => none
  | atRule position keyword prelude =>
    if token.isLiteral ";" then some (.atRule ⟨position, keyword, prelude.reverse, none⟩) else none

end Pending

/-- The nodes of a sequence of tokens behind a rule that has begun, if one has. Tokens of the class
`skips` are passed over between rules. -/
def nodesFrom (skips : Token → Bool) : Option Pending → List Token → List Node
  | none, [] => []
  | some pending, [] => [pending.abandon]
  | none, token :: rest =>
    if skips token then nodesFrom skips none rest
    else
      match token.curlyContent? with
      | some body => .styleRule ⟨token.position, [], body⟩ :: nodesFrom skips none rest
      | none => nodesFrom skips (some (.begin token)) rest
  | some pending, token :: rest =>
    match token.curlyContent? with
    | some body => pending.complete body :: nodesFrom skips none rest
    | none =>
      match pending.completedBy? token with
      | some node => node :: nodesFrom skips none rest
      | none => nodesFrom skips (some (pending.push token)) rest

def nodes (tokens : List Token) : List Node :=
  nodesFrom Token.isGap none tokens

/-- Whether a token is passed over between the rules of a whole stylesheet: gaps, and the two marks
that once hid a stylesheet from old readers. -/
def isPassedAtTop (token : Token) : Bool :=
  token.isGap || token.isLiteral "<!--" || token.isLiteral "-->"

/-- The nodes of a stylesheet, comments dropped. -/
def parse (source : Text) : Except OverlongInteger (List Node) :=
  (tokens false source).map (nodesFrom isPassedAtTop none)

end StyleOrigin.Css
