import StyleOrigin.Media.Fragment
import StyleOrigin.Proofs.Css.Nodes
import StyleOrigin.Proofs.Css.RoundTrip

/-! # Fragments as tokens

A fragment is text put together from the texts of its parts. It is also what is written for one sequence
of tokens: a media rule with the condition as its prelude and the rules in its block. What is known of
written tokens thus applies to it.

* `Rule.Ready`, `Fragment.Ready`: what holds of the fragments of a report.
* `Fragment.write_eq`: the text of a fragment, part by part.
* `Fragment.tokens`, `writeTokens_tokens`: the tokens of a fragment, and what is written for them.
* `wellRead_tokens`: these tokens are as if they had been read.
-/
set_option autoImplicit false

namespace StyleOrigin

namespace Css

/-! ## Rules of a fragment -/

def spaceOf (text : Text) : Token :=
  .leaf .start (.whitespace text)

def blockOf (body : List Token) : Token :=
  .group .start (.bracket .curly) body

/-- What holds of a rule that is narrowed to a selector of a source. -/
structure Rule.Ready (rule : Rule) : Prop where
  parted : ∃ first others position, rule.prelude = first :: others ++ [.leaf position (.whitespace [' '])] ∧
    first.isGap = false
  each : ∀ token ∈ rule.prelude, token.Sound ∧ token.curlyContent? = none ∧
    token.isUnmatched .curly = false
  block : (blockOf rule.body).Sound
  free : CommentFree rule.prelude ∧ CommentFree rule.body
  short : ∀ lexeme ∈ flat rule.prelude ++ flat rule.body, lexeme.overlong? = none

/-- The tokens of a rule on a line of its own. -/
def Rule.tokens (rule : Rule) : List Token :=
  spaceOf "\n  " :: (aired rule.prelude ++ [blockOf rule.body])

/-- The tokens of rules on lines of their own. -/
def contentOf (rules : List Rule) : List Token :=
  rules.flatMap Rule.tokens ++ [lineFeed]

theorem Rule.Ready.kindAfter_aired {rule : Rule} (h : rule.Ready) (before : Option Kind) :
    kindAfter before (aired rule.prelude) = some .other := by
  obtain ⟨first, others, position, hprelude, _⟩ := h.parted
  have hlast : (aired rule.prelude).getLast? = some (.leaf position (.whitespace [' '])) := by
    rw [getLast_aired, hprelude, List.getLast?_concat]
  obtain ⟨front, hfront⟩ := List.getLast?_eq_some_iff.mp hlast
  rw [hfront, kindAfter_concat]
  rfl

theorem writeTokensFrom_ruleTokens {rule : Rule} (h : rule.Ready) (rest : List Token) :
    writeTokensFrom none (rule.tokens ++ rest) =
      Fragment.writeRule rule ++ writeTokensFrom none rest := by
  have hblock : writeTokensFrom none (blockOf rule.body :: rest) =
      writeBlock rule.body ++ writeTokensFrom none rest := by
    rw [writeTokensFrom, show (blockOf rule.body).kind = .other from rfl, writeTokensFrom_other]
    rfl
  have hprelude : writeTokensFrom none (aired rule.prelude ++ blockOf rule.body :: rest) =
      rule.write ++ writeTokensFrom none rest := by
    rw [writeTokensFrom_append, h.kindAfter_aired, writeTokensFrom_other, hblock, writeTokensFrom_aired,
      Rule.write, List.append_assoc]
    rfl
  rw [Rule.tokens, List.cons_append, List.append_assoc, List.singleton_append, writeTokensFrom,
    show (spaceOf "\n  ").kind = .other from rfl, writeTokensFrom_other, hprelude,
    Fragment.writeRule, List.append_assoc]
  rfl

theorem writeTokens_contentOf {rules : List Rule} (h : ∀ rule ∈ rules, rule.Ready) :
    writeTokens (contentOf rules) = rules.flatMap Fragment.writeRule ++ ['\n'] := by
  induction rules with
  | nil => rfl
  | cons rule rules ih =>
    obtain ⟨hrule, hrules⟩ := List.forall_mem_cons.mp h
    have ih := ih hrules
    rw [writeTokens, contentOf] at ih ⊢
    rw [List.flatMap_cons, List.append_assoc, writeTokensFrom_ruleTokens hrule, ih, List.flatMap_cons,
      List.append_assoc]

end Css

/-! ## Fragments -/

namespace Fragment

open Css

/-- Nothing is put between a condition and the spaces around it: no condition that was read ends in a
lone backslash. -/
theorem writeTokens_spaced {condition : List Token} (h : WellRead condition) :
    writeTokens (space :: condition ++ [space]) = ' ' :: writeTokens condition ++ [' '] := by
  have hends : kindAfter (some .other) condition ≠ some (.literal ['\\']) := by
    rcases List.eq_nil_or_concat condition with rfl | ⟨front, last, rfl⟩
    · decide
    · rw [List.concat_eq_append, kindAfter_concat]
      intro hkind
      have hlast := h.ends last (by simp)
      exact absurd (kind_eq_literal_iff.mp (Option.some.inj hkind)) (by simp [hlast])
  have hlast : writeTokensFrom (kindAfter (some .other) condition) [space] = [' '] :=
    writeTokensFrom_whitespace hends .start [' '] []
  rw [writeTokens, List.cons_append, writeTokensFrom, writeTokensFrom_append,
    show space.kind = .other from rfl, hlast, writeTokensFrom_other]
  rfl

theorem write_eq {fragment : Fragment} (h : WellRead fragment.condition) :
    fragment.write = "@media ".toList ++ writeTokens fragment.condition ++ " \x7b".toList ++
      (fragment.rules.flatMap fun rule => "\n  ".toList ++ rule.write) ++ "\n\x7d".toList := by
  have hrules : fragment.rules.flatMap writeRule =
      fragment.rules.flatMap fun rule => "\n  ".toList ++ rule.write := rfl
  have hwrite : fragment.write = "@media".toList ++ writeTokens (space :: fragment.condition ++ [space])
      ++ '{' :: fragment.rules.flatMap writeRule ++ "\n\x7d".toList := rfl
  rw [hwrite, writeTokens_spaced h, hrules]
  simp

/-- The tokens of a fragment: a media rule with its condition and its rules. -/
def tokens (fragment : Fragment) : List Token :=
  .leaf .start (.atKeyword "media") ::
    (space :: fragment.condition ++ [space] ++ [blockOf (contentOf fragment.rules)])

/-- What holds of a fragment of a report. -/
structure Ready (fragment : Fragment) : Prop where
  condition : WellRead fragment.condition
  rules : ∀ rule ∈ fragment.rules, rule.Ready

theorem writeTokens_media (rest : List Token) :
    writeTokens (.leaf .start (.atKeyword "media") :: space :: rest) =
      "@media" ++ writeTokens (space :: rest) := by
  have hkeyword : (Token.leaf .start (.atKeyword "media")).write = "@media" := by decide +kernel
  have hseparator : separator (some .atKeyword) space = [] := rfl
  have hspace : writeTokensFrom (some .atKeyword) (space :: rest) =
      writeTokensFrom none (space :: rest) := by
    rw [writeTokensFrom, writeTokensFrom, hseparator]
    rfl
  have hcons := writeTokensFrom.eq_2 none (.leaf .start (.atKeyword "media")) (space :: rest)
  rw [hkeyword] at hcons
  exact hcons.trans (congrArg ("@media".toList ++ ·) hspace)

theorem writeTokens_tokens {fragment : Fragment} (h : fragment.Ready) :
    writeTokens fragment.tokens = fragment.write := by
  have hcontent := writeTokens_contentOf h.rules
  have hblock : writeTokensFrom (some .other) [blockOf (contentOf fragment.rules)] =
      writeBlock (contentOf fragment.rules) := by
    rw [writeTokensFrom_other, writeTokensFrom, writeTokensFrom, List.append_nil]
    rfl
  have hcondition : writeTokens (space :: fragment.condition ++ [space] ++
      [blockOf (contentOf fragment.rules)]) =
      writeTokens (space :: fragment.condition ++ [space]) ++ writeBlock (contentOf fragment.rules) := by
    rw [writeTokens, writeTokensFrom_append, kindAfter_concat]
    exact congrArg (writeTokensFrom none (space :: fragment.condition ++ [space]) ++ ·) hblock
  have hstart : writeTokens fragment.tokens = "@media".toList ++ writeTokens (space ::
      fragment.condition ++ [space] ++ [blockOf (contentOf fragment.rules)]) := writeTokens_media _
  have hend : fragment.write = "@media".toList ++ writeTokens (space :: fragment.condition ++ [space])
      ++ '{' :: fragment.rules.flatMap writeRule ++ "\n\x7d".toList := rfl
  rw [hstart, hcondition, hend, writeBlock, hcontent]
  simp only [List.append_assoc, List.cons_append]
  rfl

end Fragment

/-! ## The tokens of a fragment are as if read -/

namespace Css

theorem mem_flat_blockOf {body : List Token} {lexeme : Lexeme} :
    lexeme ∈ flat [blockOf body] ↔
      lexeme = .opens (.bracket .curly) ∨ lexeme ∈ flat body ∨ lexeme = .closes .curly := by
  simp [flat, Token.flat, blockOf, Opening.closedBy]

theorem mem_flat_aired {tokens : List Token} {lexeme : Lexeme} (h : lexeme ∈ flat (aired tokens)) :
    lexeme ∈ flat tokens ∨ lexeme = .leaf (.whitespace ['\n']) := by
  obtain ⟨token, htoken, hmem⟩ := mem_flat.mp h
  obtain htoken | rfl := mem_aired htoken
  · exact .inl (mem_flat.mpr ⟨token, htoken, hmem⟩)
  · exact .inr (List.mem_singleton.mp hmem)

/-- Tokens that may stand in a block. -/
structure Sheltered (tokens : List Token) : Prop extends WellRead tokens where
  closed : ∀ token ∈ tokens, token.isUnmatched .curly = false

theorem Sheltered.append {front back : List Token} (hfront : Sheltered front)
    (hback : Sheltered back) : Sheltered (front ++ back) where
  toWellRead := hfront.toWellRead.append hback.toWellRead
  closed token htoken := (List.mem_append.mp htoken).elim (hfront.closed token) (hback.closed token)

theorem Sheltered.flatMap {α : Type} {pieces : List α} {tokens : α → List Token}
    (h : ∀ piece ∈ pieces, Sheltered (tokens piece)) : Sheltered (pieces.flatMap tokens) := by
  induction pieces with
  | nil => exact ⟨⟨⟨by simp, .nil⟩, by simp, by simp [flat]⟩, by simp⟩
  | cons piece pieces ih =>
    obtain ⟨hpiece, hpieces⟩ := List.forall_mem_cons.mp h
    rw [List.flatMap_cons]
    exact hpiece.append (ih hpieces)

theorem sheltered_space (position : Position) {text : Text} (hne : text ≠ [])
    (h : text.all isWhitespace = true) : Sheltered [.leaf position (.whitespace text)] where
  sound := soundAll_singleton (.leaf position ⟨hne, List.all_eq_true.mp h⟩)
  ends := by simp [Token.isLiteral]
  closed := by simp [Token.isUnmatched]
  short := by simp [flat, Token.flat, Lexeme.overlong?, Leaf.numeral?]

theorem sheltered_block {body : List Token} (hsound : (blockOf body).Sound)
    (hshort : ∀ lexeme ∈ flat body, lexeme.overlong? = none) : Sheltered [blockOf body] where
  sound := soundAll_singleton hsound
  ends := by simp [blockOf, Token.isLiteral]
  closed := by simp [blockOf, Token.isUnmatched]
  short lexeme hlexeme := by
    obtain rfl | hlexeme | rfl := mem_flat_blockOf.mp hlexeme
    · rfl
    · exact hshort lexeme hlexeme
    · rfl

theorem sheltered_aired {tokens : List Token} (hsound : ∀ token ∈ tokens, token.Sound)
    (hends : ∀ token ∈ tokens.getLast?, token.isLiteral ['\\'] = false)
    (hclosed : ∀ token ∈ tokens, token.isUnmatched .curly = false)
    (hshort : ∀ lexeme ∈ flat tokens, lexeme.overlong? = none) : Sheltered (aired tokens) := by
  have hfeed : Sheltered [lineFeed] := sheltered_space .start (by simp) (by decide)
  refine ⟨⟨⟨fun token htoken => ?_, chain_aired tokens⟩, ?_, fun lexeme hlexeme => ?_⟩,
    fun token htoken => ?_⟩
  · obtain htoken | rfl := mem_aired htoken
    · exact hsound token htoken
    · exact hfeed.sound.each _ List.mem_cons_self
  · rw [getLast_aired]
    exact hends
  · obtain hlexeme | rfl := mem_flat_aired hlexeme
    · exact hshort lexeme hlexeme
    · rfl
  · obtain htoken | rfl := mem_aired htoken
    · exact hclosed token htoken
    · rfl

theorem Rule.Ready.sheltered_prelude {rule : Rule} (h : rule.Ready) :
    Sheltered (aired rule.prelude) := by
  refine sheltered_aired (fun token htoken => (h.each token htoken).1) ?_
    (fun token htoken => (h.each token htoken).2.2)
    fun lexeme hlexeme => h.short lexeme (List.mem_append_left _ hlexeme)
  obtain ⟨first, others, position, hprelude, _⟩ := h.parted
  intro token htoken
  rw [hprelude, List.getLast?_concat] at htoken
  obtain rfl := Option.some.inj htoken
  rfl

theorem Rule.Ready.sheltered_tokens {rule : Rule} (h : rule.Ready) : Sheltered rule.tokens :=
  (sheltered_space .start (by simp) (by decide)).append (h.sheltered_prelude.append
    (sheltered_block h.block fun lexeme hlexeme => h.short lexeme (List.mem_append_right _ hlexeme)))

theorem sheltered_contentOf {rules : List Rule} (h : ∀ rule ∈ rules, rule.Ready) :
    Sheltered (contentOf rules) :=
  (Sheltered.flatMap fun rule hrule => (h rule hrule).sheltered_tokens).append
    (sheltered_space .start (by simp) (by decide))

theorem Sheltered.sound_block {body : List Token} (h : Sheltered body) : (blockOf body).Sound :=
  .group .start ⟨by simp, h.closed, h.ends⟩ h.sound.chain h.sound.each

theorem commentFree_spaceOf (text : Text) : CommentFree [spaceOf text] := by
  simp [CommentFree, flat, Token.flat, spaceOf, Lexeme.isComment]

theorem CommentFree.aired {tokens : List Token} (h : CommentFree tokens) :
    CommentFree (aired tokens) := by
  intro lexeme hlexeme
  obtain hlexeme | rfl := mem_flat_aired hlexeme
  · exact h lexeme hlexeme
  · rfl

theorem CommentFree.blockOf {body : List Token} (h : CommentFree body) :
    CommentFree [blockOf body] := by
  intro lexeme hlexeme
  obtain rfl | hlexeme | rfl := mem_flat_blockOf.mp hlexeme
  · rfl
  · exact h lexeme hlexeme
  · rfl

theorem commentFree_contentOf {rules : List Rule} (h : ∀ rule ∈ rules, rule.Ready) :
    CommentFree (contentOf rules) := by
  induction rules with
  | nil => exact commentFree_spaceOf ['\n']
  | cons rule rules ih =>
    obtain ⟨hrule, hrules⟩ := List.forall_mem_cons.mp h
    have hcons : contentOf (rule :: rules) = [spaceOf "\n  "] ++ (Css.aired rule.prelude ++
        [Css.blockOf rule.body] ++ contentOf rules) := by
      simp [contentOf, Rule.tokens]
    rw [hcons]
    exact (commentFree_spaceOf _).append ((hrule.free.1.aired.append hrule.free.2.blockOf).append
      (ih hrules))

end Css

namespace Fragment

open Css

/-- The tokens of a fragment are as if they had been read. -/
theorem wellRead_tokens {fragment : Fragment} (h : fragment.Ready) : WellRead fragment.tokens := by
  have hcontent := sheltered_contentOf h.rules
  have hspace := sheltered_space .start (by simp) (by decide : [' '].all isWhitespace = true)
  have hblock := sheltered_block hcontent.sound_block hcontent.short
  have hkeyword : WellRead [.leaf .start (.atKeyword "media")] :=
    ⟨soundAll_singleton (.leaf .start ⟨by simp, by decide⟩), by simp [Token.isLiteral],
      by simp [flat, Token.flat, Lexeme.overlong?, Leaf.numeral?]⟩
  have hrest := ((hspace.toWellRead.append h.condition).append hspace.toWellRead).append
    hblock.toWellRead
  exact hkeyword.append hrest

end Fragment

end StyleOrigin
