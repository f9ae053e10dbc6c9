import StyleOrigin.Proofs.Media.Fragment

/-! # Which fragments survive being written and read

A fragment survives if reading its text brings one media block with the same rules, each written as
before. Where each token of a fragment is written as what it is, just two things are in the way: a
condition that ends early, and a rule that begins like an at-rule.

* `Fragment.Survives`, `Fragment.Legible`, `Fragment.Stands`: the law and its two conditions.
* `rules_write_distil`: what reading again changes of rules does not change their texts.
* `survives_iff`: among legible fragments, those that stand are those that survive.
-/
set_option autoImplicit false

namespace StyleOrigin

namespace Css

/-! ## Rules of sound tokens -/

/-- What holds of the parts of a rule that reading without comments brings. -/
structure Rule.Plain (rule : Rule) : Prop where
  prelude : SoundAll rule.prelude ∧ CommentFree rule.prelude
  body : SoundAll rule.body ∧ CommentFree rule.body

theorem plain_of_mem_rulesOf {skips : Token → Bool} {tokens : List Token} (hsound : SoundAll tokens)
    (hfree : CommentFree tokens) {rule : Rule} (h : rule ∈ rulesOf (nodesFrom skips none tokens)) :
    rule.Plain := by
  obtain ⟨_, front, position, back, heq⟩ := standsIn_of_mem_nodesFrom.1 _ (mem_rulesOf.mp h)
  have hprelude : rule.prelude <:+: tokens := ⟨front, _, by rw [heq, List.append_assoc]⟩
  have hblock : .group position (.bracket .curly) rule.body ∈ tokens := by simp [heq]
  exact ⟨⟨hsound.part hprelude, hfree.of_subset hprelude.subset⟩, plain_content hsound hfree hblock⟩

theorem Rule.write_distil {rule : Rule} (h : rule.Plain) : rule.distil.write = rule.write := by
  rw [Rule.write, Rule.write, writeBlock, writeBlock, Rule.distil]
  simp only [writeTokens]
  rw [writeTokensFrom_distil h.prelude.1 h.prelude.2, writeTokensFrom_distil h.body.1 h.body.2]

/-- The rules of tokens that differ only in what reading again changes are written alike. -/
theorem rules_write_distil {first second : List Token} (hdistil : distil first = distil second)
    (hfirst : SoundAll first ∧ CommentFree first) (hsecond : SoundAll second ∧ CommentFree second) :
    (rulesOf (nodes first)).map Rule.write = (rulesOf (nodes second)).map Rule.write := by
  have hall : ∀ {tokens : List Token}, SoundAll tokens ∧ CommentFree tokens →
      (rulesOf (nodes tokens)).map Rule.write =
        (rulesOf (nodes (distil tokens))).map Rule.write := by
    intro tokens h
    rw [nodes, nodes, (nodesFrom_distil (.inl rfl) tokens).1, rulesOf_distil, List.map_map]
    exact List.map_congr_left fun rule hrule =>
      (Rule.write_distil (plain_of_mem_rulesOf h.1 h.2 hrule)).symm
  rw [hall hfirst, hall hsecond, hdistil]

/-! ## The rules of a block that is put together -/

theorem curlyContent_aired {tokens : List Token} (h : ∀ token ∈ tokens, token.curlyContent? = none) :
    ∀ token ∈ aired tokens, token.curlyContent? = none := by
  intro token htoken
  obtain htoken | rfl := mem_aired htoken
  · exact h token htoken
  · rfl

theorem isGap_spaceOf (text : Text) : (spaceOf text).isGap = true := rfl

/-- Rules that do not begin like at-rules are the rules of the block that is put together of them. -/
theorem rules_contentOf {rules : List Rule} (hready : ∀ rule ∈ rules, rule.Ready)
    (hkeyword : ∀ rule ∈ rules, ∀ token ∈ rule.prelude.head?, token.isAtKeyword = false) :
    (rulesOf (nodes (contentOf rules))).map Rule.write = rules.map Rule.write := by
  induction rules with
  | nil => rfl
  | cons rule rules ih =>
    obtain ⟨hrule, hrules⟩ := List.forall_mem_cons.mp hready
    obtain ⟨hfirst, hothers⟩ := List.forall_mem_cons.mp hkeyword
    have ih := ih hrules hothers
    obtain ⟨first, others, position, hprelude, hgap⟩ := hrule.parted
    obtain ⟨behind, hbehind⟩ : ∃ behind, aired rule.prelude = first :: behind := by
      rw [hprelude]
      exact exists_cons_aired first _
    have hcurly := curlyContent_aired fun token htoken => (hrule.each token htoken).2.1
    rw [hbehind] at hcurly
    have hnotKeyword := hfirst first (by rw [hprelude]; rfl)
    have hcons : contentOf (rule :: rules) = spaceOf "\n  " ::
        (first :: (behind ++ blockOf rule.body :: contentOf rules)) := by
      simp [contentOf, Rule.tokens, hbehind]
    have hnodes : nodes (contentOf (rule :: rules)) =
        .styleRule ⟨first.position, aired rule.prelude, rule.body⟩ :: nodes (contentOf rules) := by
      rw [hcons, nodes, nodesFrom, if_pos (isGap_spaceOf _), hbehind]
      exact nodesFrom_styleRule hgap hnotKeyword hcurly _ _ _
    have hwrite : Rule.write ⟨first.position, aired rule.prelude, rule.body⟩ = rule.write := by
      rw [Rule.write, Rule.write, writeTokens, writeTokens, writeTokensFrom_aired]
    rw [hnodes, rulesOf, List.filterMap_cons, Node.rule?]
    simp only [List.map_cons, hwrite]
    exact congrArg (rule.write :: ·) ih

/-! ## Rules that begin like at-rules -/

/-- The number of characters that rules are written with. -/
def textLength (rules : List Rule) : Nat :=
  (rules.map fun rule => rule.write.length).sum

theorem textLength_atMostEnd {made : List Node} {prelude body : List Token}
    (h : AtMostEnd made prelude body) :
    textLength (rulesOf made) ≤ (writeTokens prelude).length + (writeBlock body).length := by
  obtain hnone | ⟨position, tail, htail, hone⟩ := h
  · simp [hnone, textLength]
  · have hle := length_writeTokens_suffix htail
    simp only [hone, textLength, Rule.write, List.map_cons, List.map_nil, List.sum_singleton,
      List.length_append]
    omega

theorem textLength_append (first second : List Node) :
    textLength (rulesOf (first ++ second)) =
      textLength (rulesOf first) + textLength (rulesOf second) := by
  simp [textLength, rulesOf]

theorem length_writeTokens_atKeyword {first : Token} (h : first.isAtKeyword = true)
    (behind : List Token) :
    (writeTokens behind).length < (writeTokens (first :: behind)).length := by
  obtain ⟨position, keyword, rfl⟩ := Token.eq_of_isAtKeyword h
  have hle := length_writeTokens_le (some .atKeyword) behind
  have hcons : writeTokens (.leaf position (.atKeyword keyword) :: behind) =
      '@' :: (encodeIdent keyword ++ writeTokensFrom (some .atKeyword) behind) := by
    rw [writeTokens, writeTokensFrom]
    rfl
  rw [hcons, List.length_cons, List.length_append]
  omega

/-- A rule in a block brings at most one rule, which is written with no more characters, and with
fewer if the rule begins like an at-rule. -/
theorem textLength_ruleTokens {rule : Rule} (h : rule.Ready) (rest : List Token) :
    textLength (rulesOf (nodes (rule.tokens ++ rest))) ≤
        rule.write.length + textLength (rulesOf (nodes rest)) ∧
      ((∃ token ∈ rule.prelude.head?, token.isAtKeyword = true) →
        textLength (rulesOf (nodes (rule.tokens ++ rest))) <
          rule.write.length + textLength (rulesOf (nodes rest))) := by
  have hcurly := curlyContent_aired fun token htoken => (h.each token htoken).2.1
  have hnodes : nodes (rule.tokens ++ rest) =
      nodesFrom Token.isGap none (aired rule.prelude ++ blockOf rule.body :: rest) := by
    rw [Rule.tokens, List.cons_append, nodes, nodesFrom, if_pos (isGap_spaceOf _), List.append_assoc]
    rfl
  have hwrite : rule.write.length =
      (writeTokens (aired rule.prelude)).length + (writeBlock rule.body).length := by
    rw [Rule.write, List.length_append, writeTokens, writeTokens, writeTokensFrom_aired]
  constructor
  · obtain ⟨made, hmade, hends⟩ := (nodesFrom_block (.inl rfl) hcurly .start rule.body rest).1
    have hle := textLength_atMostEnd hends
    rw [hnodes, blockOf, hmade, textLength_append, nodes]
    omega
  · rintro ⟨first, hfirst, hkeyword⟩
    obtain ⟨others, hprelude⟩ := List.head?_eq_some_iff.mp hfirst
    obtain ⟨behind, hbehind⟩ := exists_cons_aired first others
    rw [← hprelude] at hbehind
    rw [hbehind] at hcurly hnodes hwrite
    obtain ⟨hfirstCurly, hbehindCurly⟩ := List.forall_mem_cons.mp hcurly
    obtain ⟨made, hmade, hends⟩ := (nodesFrom_block (.inl rfl) hbehindCurly .start rule.body rest).2
      (.begin first)
    have hstyle : (Pending.begin first).ofStyle = [] := by
      obtain ⟨position, keyword, rfl⟩ := Token.eq_of_isAtKeyword hkeyword
      rfl
    have hgap : first.isGap = false := by
      obtain ⟨position, keyword, rfl⟩ := Token.eq_of_isAtKeyword hkeyword
      rfl
    rw [hstyle, List.nil_append] at hends
    have hle := textLength_atMostEnd hends
    have hlt := length_writeTokens_atKeyword hkeyword behind
    rw [hnodes, List.cons_append, nodesFrom, hgap, if_neg Bool.false_ne_true, hfirstCurly]
    simp only
    rw [blockOf, hmade, textLength_append, nodes]
    omega

theorem textLength_contentOf_le {rules : List Rule} (hready : ∀ rule ∈ rules, rule.Ready) :
    textLength (rulesOf (nodes (contentOf rules))) ≤ textLength rules ∧
      ((∃ rule ∈ rules, ∃ token ∈ rule.prelude.head?, token.isAtKeyword = true) →
        textLength (rulesOf (nodes (contentOf rules))) < textLength rules) := by
  induction rules with
  | nil => exact ⟨Nat.le_refl _, by simp⟩
  | cons rule rules ih =>
    obtain ⟨hrule, hrules⟩ := List.forall_mem_cons.mp hready
    obtain ⟨hle, hlt⟩ := ih hrules
    obtain ⟨hfirst, hfirstLt⟩ := textLength_ruleTokens hrule (contentOf rules)
    have hcons : contentOf (rule :: rules) = rule.tokens ++ contentOf rules := by
      simp [contentOf]
    have hsum : textLength (rule :: rules) = rule.write.length + textLength rules := by
      simp [textLength]
    rw [hcons, hsum]
    refine ⟨by omega, ?_⟩
    rintro ⟨other, hother, hkeyword⟩
    obtain rfl | hother := List.mem_cons.mp hother
    · have := hfirstLt hkeyword
      omega
    · have := hlt ⟨other, hother, hkeyword⟩
      omega

/-- The rules of a block that is put together are written as before exactly if none of them begins
like an at-rule. -/
theorem rules_contentOf_iff {rules : List Rule} (hready : ∀ rule ∈ rules, rule.Ready) :
    (rulesOf (nodes (contentOf rules))).map Rule.write = rules.map Rule.write ↔
      ∀ rule ∈ rules, ∀ token ∈ rule.prelude.head?, token.isAtKeyword = false := by
  refine ⟨fun heq rule hrule token htoken => ?_, rules_contentOf hready⟩
  refine Bool.eq_false_iff.mpr fun hkeyword => ?_
  have hlt := (textLength_contentOf_le hready).2 ⟨rule, hrule, token, htoken, hkeyword⟩
  have hlength : textLength (rulesOf (nodes (contentOf rules))) = textLength rules := by
    have h := congrArg (fun texts => (texts.map List.length).sum) heq
    simpa [textLength, List.map_map, Function.comp_def] using h
  omega

/-! ## Conditions that end early -/

/-- Whether a token ends an at-rule. -/
def Token.endsAtRule (token : Token) : Bool :=
  token.curlyContent?.isSome || token.isLiteral ";"

theorem nodesFrom_concat_block_ne_nil {skips : Token → Bool} (hskips : SkipsGaps skips)
    (tokens : List Token) (body : List Token) :
    nodesFrom skips none (tokens ++ [blockOf body]) ≠ [] ∧
      ∀ pending, nodesFrom skips (some pending) (tokens ++ [blockOf body]) ≠ [] := by
  induction tokens with
  | nil =>
    have hblock : skips (blockOf body) = false := by
      rcases hskips with rfl | rfl <;> rfl
    constructor
    · rw [List.nil_append, nodesFrom, hblock, if_neg Bool.false_ne_true, blockOf, Token.curlyContent?]
      simp
    · intro pending
      rw [List.nil_append, nodesFrom, blockOf, Token.curlyContent?]
      simp
  | cons token tokens ih =>
    obtain ⟨hnone, hsome⟩ := ih
    constructor
    · rw [List.cons_append, nodesFrom]
      split
      · exact hnone
      · split
        · simp
        · exact hsome _
    · intro pending
      rw [List.cons_append, nodesFrom]
      split
      · simp
      · split
        · simp
        · exact hsome _

/-- A prelude that ends its at-rule early leaves something behind that rule. -/
theorem two_le_length_of_endsAtRule {skips : Token → Bool} (hskips : SkipsGaps skips)
    {prelude : List Token} (h : ∃ token ∈ prelude, token.endsAtRule = true) (body : List Token)
    {pending : Pending} (hkeyword : pending.keyword?.isSome = true) :
    2 ≤ (nodesFrom skips (some pending) (prelude ++ [blockOf body])).length := by
  induction prelude generalizing pending with
  | nil => exact absurd h (by simp)
  | cons token prelude ih =>
    have hrest := List.length_pos_of_ne_nil (nodesFrom_concat_block_ne_nil hskips prelude body).1
    rw [List.cons_append, nodesFrom]
    cases hcurly : token.curlyContent? with
    | some content =>
      simp only [List.length_cons]
      omega
    | none =>
      cases hcompleted : pending.completedBy? token with
      | some node =>
        simp only [List.length_cons]
        omega
      | none =>
        have hstays : token.endsAtRule = false := by
          rw [Token.endsAtRule, hcurly]
          simpa using Pending.completedBy_eq_none_iff.mp hcompleted hkeyword
        obtain ⟨other, hother, hends⟩ := h
        obtain rfl | hother := List.mem_cons.mp hother
        · exact absurd hends (by simp [hstays])
        · exact ih ⟨other, hother, hends⟩ (by rw [Pending.keyword_push, hkeyword])

end Css

/-! ## The law -/

namespace Fragment

open Css

/-- Reading the text of a fragment brings one media block with the rules of the fragment, each written
as before. -/
def Survives (fragment : Fragment) : Prop :=
  ∃ node block, parse fragment.write = .ok [node] ∧ node.mediaBlock? = some block ∧
    block.rules.map Rule.write = fragment.rules.map Rule.write

/-- Each token of the fragment is written as what it is. -/
def Legible (fragment : Fragment) : Prop :=
  legible fragment.tokens = true

/-- Nothing in the condition ends an at-rule, and no rule begins like one. -/
def Stands (fragment : Fragment) : Prop :=
  (∀ token ∈ fragment.condition, token.endsAtRule = false) ∧
    ∀ rule ∈ fragment.rules, ∀ token ∈ rule.prelude.head?, token.isAtKeyword = false

instance (fragment : Fragment) : Decidable fragment.Legible :=
  inferInstanceAs (Decidable (legible fragment.tokens = true))

instance (fragment : Fragment) : Decidable fragment.Stands :=
  inferInstanceAs (Decidable (_ ∧ _))

/-- Whether reading the text of a fragment brings one media block with as many rules. -/
def keepsCount (fragment : Fragment) : Bool :=
  match parse fragment.write with
  | .ok nodes => (mediaBlocks nodes).map (·.rules.length) == [fragment.rules.length]
  | .error _ => false

theorem Survives.keepsCount {fragment : Fragment} (h : fragment.Survives) :
    fragment.keepsCount = true := by
  obtain ⟨node, block, hparse, hblock, hrules⟩ := h
  have hlength : block.rules.length = fragment.rules.length := by
    simpa using congrArg List.length hrules
  simp [Fragment.keepsCount, hparse, mediaBlocks, hblock, hlength]

/-- The nodes that the text of a legible fragment is read as, up to what reading again changes. -/
theorem exists_parse_write {fragment : Fragment} (hready : fragment.Ready)
    (hlegible : fragment.Legible) :
    ∃ after, parse fragment.write = .ok (nodesFrom isPassedAtTop none after) ∧
      SoundAll after ∧ CommentFree after ∧
      (nodesFrom isPassedAtTop none after).map Node.distil =
        (nodesFrom isPassedAtTop none fragment.tokens).map Node.distil := by
  obtain ⟨after, hafter, hdistil⟩ := exists_tokens_writeTokens (wellRead_tokens hready) hlegible false
  obtain ⟨hread, hfree⟩ := wellRead_of_tokens hafter
  rw [writeTokens_tokens hready] at hafter
  refine ⟨after, ?_, hread.sound, hfree rfl, ?_⟩
  · rw [parse, hafter]
    rfl
  · rw [← (nodesFrom_distil (.inr rfl) after).1, ← (nodesFrom_distil (.inr rfl) fragment.tokens).1,
      hdistil]

/-- The nodes of a legible fragment whose condition ends no at-rule: one media block, with the rules of
the block that is put together. -/
theorem exists_mediaBlock {fragment : Fragment} (hready : fragment.Ready)
    (hlegible : fragment.Legible)
    (hcondition : ∀ token ∈ fragment.condition, token.endsAtRule = false) :
    ∃ node block, parse fragment.write = .ok [node] ∧ node.mediaBlock? = some block ∧
      block.rules.map Rule.write =
        (rulesOf (nodes (contentOf fragment.rules))).map Rule.write := by
  obtain ⟨after, hparse, hsound, hfree, hnodes⟩ := exists_parse_write hready hlegible
  have hstays : ∀ token ∈ space :: fragment.condition ++ [space],
      token.curlyContent? = none ∧ token.isLiteral ";" = false := by
    intro token htoken
    have hcases : token = space ∨ token ∈ fragment.condition := by
      simp only [List.cons_append, List.mem_cons, List.mem_append, List.not_mem_nil] at htoken
      tauto
    obtain rfl | htoken := hcases
    · exact ⟨rfl, rfl⟩
    · simpa [Token.endsAtRule] using hcondition token htoken
  have hone : nodesFrom isPassedAtTop none fragment.tokens = [.atRule ⟨.start, "media",
      space :: fragment.condition ++ [space], some (contentOf fragment.rules)⟩] :=
    nodesFrom_atRule (.inr rfl) (fun token htoken => (hstays token htoken).1)
      (fun token htoken => (hstays token htoken).2) .start .start "media" _ []
  rw [hone] at hnodes
  obtain ⟨node, hnode, hdistil⟩ := List.map_eq_singleton_iff.mp hnodes
  rw [hnode] at hparse
  cases node with
  | styleRule rule => exact absurd hdistil (by simp [Node.distil])
  | blockless position => exact absurd hdistil (by simp [Node.distil])
  | atRule rule =>
    obtain ⟨position, keyword, prelude, found⟩ := rule
    simp only [Node.distil, AtRule.distil, Node.atRule.injEq, AtRule.mk.injEq, Option.map_some,
      true_and] at hdistil
    obtain ⟨rfl, _, hbody⟩ := hdistil
    obtain ⟨body, rfl, hcontent⟩ := Option.map_eq_some_iff.mp hbody
    have hmem : Node.atRule ⟨position, "media".toList, prelude, some body⟩ ∈
        nodesFrom isPassedAtTop none after := by
      rw [hnode]
      exact List.mem_singleton_self _
    obtain ⟨front, opener, place, back, hafter⟩ := standsIn_of_mem_nodesFrom.1 _ hmem body rfl
    have hblock : .group place (.bracket .curly) body ∈ after := by simp [hafter]
    refine ⟨_, ⟨position, prelude, body⟩, hparse, ?_, ?_⟩
    · have hlower : Text.lower "media" = "media".toList := by decide
      rw [Node.mediaBlock?, if_pos hlower]
    · exact rules_write_distil hcontent (plain_content hsound hfree hblock)
        ⟨(sheltered_contentOf hready.rules).sound, commentFree_contentOf hready.rules⟩

/-- Among legible fragments, those that stand are those that survive. -/
theorem survives_iff {fragment : Fragment} (hready : fragment.Ready) (hlegible : fragment.Legible) :
    fragment.Survives ↔ fragment.Stands := by
  by_cases hcondition : ∀ token ∈ fragment.condition, token.endsAtRule = false
  · obtain ⟨node, block, hparse, hblock, hrules⟩ := exists_mediaBlock hready hlegible hcondition
    have hiff := rules_contentOf_iff hready.rules
    rw [← hrules] at hiff
    constructor
    · rintro ⟨other, found, hother, hfound, hsame⟩
      rw [hparse] at hother
      obtain rfl : node = other := by simpa using hother
      rw [hblock] at hfound
      obtain rfl := Option.some.inj hfound
      exact ⟨hcondition, hiff.mp hsame⟩
    · rintro ⟨_, hkeyword⟩
      exact ⟨node, block, hparse, hblock, hiff.mpr hkeyword⟩
  · refine ⟨?_, fun hstands => absurd hstands.1 hcondition⟩
    rintro ⟨node, block, hother, _, _⟩
    obtain ⟨after, hparse, _, _, hnodes⟩ := exists_parse_write hready hlegible
    obtain ⟨token, htoken, hends⟩ : ∃ token ∈ fragment.condition, token.endsAtRule = true := by
      simpa using hcondition
    have hprelude : ∃ token ∈ space :: fragment.condition ++ [space], token.endsAtRule = true :=
      ⟨token, by simp [htoken], hends⟩
    have htwo : 2 ≤ (nodesFrom isPassedAtTop none fragment.tokens).length := by
      have h := two_le_length_of_endsAtRule (.inr rfl) hprelude (contentOf fragment.rules)
        (rfl : (Pending.atRule .start "media" []).keyword?.isSome = true)
      exact h
    have hlength := congrArg List.length hnodes
    rw [List.length_map, List.length_map] at hlength
    rw [hparse] at hother
    have hsingle : nodesFrom isPassedAtTop none after = [node] := by simpa using hother
    rw [hsingle, List.length_singleton] at hlength
    omega

end Fragment

end StyleOrigin
