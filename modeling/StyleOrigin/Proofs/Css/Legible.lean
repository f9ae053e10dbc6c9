import StyleOrigin.Proofs.Css.Leaves

/-! # Legible tokens

What is written between neighbours keeps nearly all of them apart. `Leaf.runsOn` lists the neighbours
that still run together; a sequence without them, and without leaves that are illegible on their own,
is legible.

* `Token.Sound`, `SoundAll`: what holds of the tokens that reading brings.
* `Leaf.runsOn`: the leaves that run into what is written behind them.
* `legible`: the sequences that are written as what they are.
-/
set_option autoImplicit false

namespace StyleOrigin.Css

/-! ## Sound tokens -/

namespace Token

def isSpace : Token → Bool
  | leaf _ (.whitespace _) => true
  | _ => false

/-- Whether the token is a string, or stands for one that was spoiled. -/
def isQuoted : Token → Bool
  | leaf _ (.string _ _) => true
  | leaf _ (.flaw .badString) => true
  | _ => false

/-- Whether the token is a closer of a kind that ends no group. -/
def isUnmatched (bracket : Bracket) : Token → Bool
  | leaf _ (.flaw (.unmatched found)) => found == bracket
  | _ => false

/-- What may stand behind a token: only a line feed behind a lone backslash. -/
def Leads (before after : Token) : Prop :=
  before.isLiteral ['\\'] = true → after.startsWithLineFeed = true

end Token

def startsQuoted : List Token → Bool
  | [] => false
  | token :: rest => token.isQuoted || (token.isSpace && (rest.head?.map Token.isQuoted).getD false)

/-- What holds of an opening and the content of its group. -/
structure Opening.Holds (opening : Opening) (content : List Token) : Prop where
  named : ∀ name, opening = .function name → name ≠ [] ∧ '\x00' ∉ name ∧
    (Text.lower name = "url" → startsQuoted content = true)
  closed : ∀ token ∈ content, token.isUnmatched opening.closedBy = false
  ends : ∀ token ∈ content.getLast?, token.isLiteral ['\\'] = false

/-- What holds of every token that reading brings. -/
inductive Token.Sound : Token → Prop
  | leaf (position : Position) {value : Leaf} (h : value.Sound) : Sound (.leaf position value)
  | group (position : Position) {opening : Opening} {content : List Token}
      (hopening : opening.Holds content) (hchain : content.IsChain Token.Leads)
      (h : ∀ token ∈ content, Sound token) : Sound (.group position opening content)

/-- What holds of the sequences of tokens that reading brings, and of the parts of these. -/
structure SoundAll (tokens : List Token) : Prop where
  each : ∀ token ∈ tokens, token.Sound
  chain : tokens.IsChain Token.Leads

theorem SoundAll.tail {token : Token} {rest : List Token} (h : SoundAll (token :: rest)) :
    SoundAll rest :=
  ⟨fun next hnext => h.each next (List.mem_cons_of_mem _ hnext), h.chain.tail⟩

theorem SoundAll.part {part tokens : List Token} (h : SoundAll tokens) (hpart : part <:+: tokens) :
    SoundAll part :=
  ⟨fun token htoken => h.each token (hpart.subset htoken), h.chain.infix hpart⟩

theorem SoundAll.append {front back : List Token} (hfront : SoundAll front) (hback : SoundAll back)
    (hlast : ∀ token ∈ front.getLast?, token.isLiteral ['\\'] = false) :
    SoundAll (front ++ back) := by
  refine ⟨fun token htoken => ?_, List.isChain_append.mpr ⟨hfront.chain, hback.chain, ?_⟩⟩
  · exact (List.mem_append.mp htoken).elim (hfront.each token) (hback.each token)
  · intro token htoken _ _ hliteral
    exact absurd hliteral (by simp [hlast token htoken])

theorem soundAll_singleton {token : Token} (h : token.Sound) : SoundAll [token] :=
  ⟨by simpa using h, .singleton token⟩

/-! ## Leaves that run on -/

/-- Whether a leaf runs into the text that is written behind it. -/
def Leaf.runsOn (text : Text) : Leaf → Bool
  | .ident name =>
    startsUnicodeRange (encodeIdent name ++ text) || startsClosingMark (encodeIdent name ++ text)
  | .number _ => List.isPrefixOf "--".toList text || text.head? == some '%'
  | .literal ['@'] => List.isPrefixOf "--".toList text
  | .literal ['#'] => text.head? == some '-'
  | .literal ['-'] => text.head? == some '-'
  | .literal ['<'] => List.isPrefixOf "!--".toList text
  | .literal ['|'] => text.head? == some '|'
  | .literal ['/'] => text.head? == some '*'
  | _ => false

def Token.runsOn (text : Text) : Token → Bool
  | .leaf _ value => value.runsOn text
  | .group _ _ _ => false

/-- The kind that the text of a token looks like: a spoiled address is written like an address. -/
def Token.look : Token → Kind
  | .leaf _ (.flaw .badUrl) => .url
  | token => token.kind

/-- Whether a token is kept apart from the next one, if the two must be kept apart by their looks. -/
def Token.standsApart (token : Token) : List Token → Bool
  | [] => true
  | next :: _ => token.kind.needsComment next.kind || !token.kind.needsComment next.look

mutual

/-- Whether what is written for a token says again what the token is. -/
def Token.isLegible : Token → Bool
  | .leaf _ value => value.isLegible
  | .group _ _ content => legible content

/-- Whether what is written for a sequence of tokens says again what they are. -/
def legible : List Token → Bool
  | [] => true
  | token :: rest =>
    token.isLegible && !token.runsOn (writeTokensFrom (some token.kind) rest) &&
      token.standsApart rest && legible rest

end

/-- Whether a character closes a bracket. -/
def isCloser (c : Char) : Bool :=
  c == '}' || c == ']' || c == ')'

end StyleOrigin.Css
