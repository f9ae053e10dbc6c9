import StyleOrigin.Proofs.Css.Writing
import StyleOrigin.Proofs.Media.Expansion
import StyleOrigin.Proofs.Text.Squeezing

/-! # Narrowed rules

A unit speaks of one selector in three ways: its rule has that selector alone, its text is that of the
rule's prelude, and it is searched for by the first word of this text. The rule ends in a space that the
text is not made from, and the writer may put a line feed in front of it; neither is seen in a squeezed
text.

* `splitSelectors_narrow`, `pieces_narrow`: a narrowed rule is narrowed already.
* `writeTokens_concat_space`, `squeeze_writeTokens_narrow`: what the space brings, and that it is not seen.
* `narrowed_agree`: the rule, the selector and the word of a unit agree.
-/
set_option autoImplicit false

namespace StyleOrigin

open Css

/-! ## Narrowing again -/

section Narrow
variable {rule : Rule} {group : List Token}

theorem splitSelectors_narrow (h : group ∈ splitSelectors rule.prelude) :
    splitSelectors (rule.narrow group).prelude = [group] :=
  splitSelectors_concat_gap (isSelector_of_mem h) rfl

theorem pieces_narrow (h : group ∈ splitSelectors rule.prelude) (query : Text) :
    (rule.narrow group).pieces query = [⟨query, rule.narrow group, group⟩] := by
  rw [Rule.pieces, splitSelectors_narrow h, List.map_singleton]

theorem narrow_narrow : (rule.narrow group).narrow group = rule.narrow group := rfl

/-- A unit, taken for a rule to be expanded, gives itself. -/
theorem units_pieces_narrow (h : group ∈ splitSelectors rule.prelude) (query : Text) (index : Nat) :
    ((rule.narrow group).pieces query).map (Piece.unit index) =
      [Piece.unit index ⟨query, rule, group⟩] := by
  rw [pieces_narrow h, List.map_singleton, Piece.unit, narrow_narrow]
  rfl

end Narrow

/-! ## The space at the end -/

/-- Behind a lone backslash there is a line feed in front of the space. -/
theorem writeTokens_concat_space (group : List Token) (position : Position) :
    ∃ edge : Text, (∀ c ∈ edge, Text.isBlank c = true) ∧
      writeTokens (group ++ [.leaf position (.whitespace [' '])]) = writeTokens group ++ edge := by
  let space : Token := .leaf position (.whitespace [' '])
  refine ⟨separator (kindAfter none group) space ++ [' '], fun c hc => ?_, ?_⟩
  · obtain hnone | ⟨-, hfeed⟩ := separator_cases (show space.kind = .other from rfl) (kindAfter none group)
    · rw [hnone] at hc
      rw [List.mem_singleton.mp hc]
      decide
    · rw [hfeed] at hc
      obtain rfl | rfl : c = '\n' ∨ c = ' ' := by simpa using hc
      all_goals decide
  · rw [writeTokens, writeTokensFrom_append, writeTokensFrom, writeTokensFrom, List.append_nil]
    rfl

theorem squeeze_writeTokens_narrow (rule : Rule) (group : List Token) :
    Text.squeeze (writeTokens (rule.narrow group).prelude) = selectorText group := by
  obtain ⟨edge, hedge, hwrite⟩ := writeTokens_concat_space group rule.position
  rw [Rule.narrow, hwrite, Text.squeeze_append_blanks hedge, selectorText]

/-! ## Units -/

theorem exists_site_of_mem_unitsOf {nodes : List Node} {unit : StyleUnit} (h : unit ∈ unitsOf nodes) :
    ∃ site block rule group, Site.Holds nodes site block rule group ∧
      unit = Piece.unit unit.index ⟨block.query, rule, group⟩ := by
  rw [unitsOf_eq_mapIdx] at h
  obtain ⟨index, hlt, rfl⟩ := List.mem_mapIdx.mp h
  obtain ⟨block, rule, group, hholds, hpiece⟩ := mem_sited.mp (List.getElem_mem hlt)
  exact ⟨_, block, rule, group, hholds, by rw [hpiece]; rfl⟩

/-- Each unit is made from a group at a site. The rule of the unit has that group for its only selector,
and expanding it once more gives the unit back. The text in front of the block, where the rule is written
out, is the selector when it is squeezed, and its first word is the word that is searched for. -/
theorem narrowed_agree (nodes : List Node) :
    ∀ unit ∈ unitsOf nodes,
      (∃ site block rule group, Site.Holds nodes site block rule group ∧
        unit = Piece.unit unit.index ⟨block.query, rule, group⟩ ∧
        splitSelectors unit.rule.prelude = [group] ∧
        (unit.rule.pieces unit.query).map (Piece.unit unit.index) = [unit]) ∧
      unit.rule.write = writeTokens unit.rule.prelude ++ writeBlock unit.rule.body ∧
      unit.selector = Text.squeeze (writeTokens unit.rule.prelude) ∧
      unit.token = (Text.words (writeTokens unit.rule.prelude)).headD [] := by
  intro unit hunit
  obtain ⟨site, block, rule, group, hholds, hmade⟩ := exists_site_of_mem_unitsOf hunit
  have hgroup : group ∈ splitSelectors rule.prelude := List.mem_of_getElem? hholds.group_eq
  generalize unit.index = index at hmade ⊢
  subst hmade
  have hselector : selectorText group = Text.squeeze (writeTokens (rule.narrow group).prelude) :=
    (squeeze_writeTokens_narrow rule group).symm
  have hword : searchToken (selectorText group) =
      (Text.words (writeTokens (rule.narrow group).prelude)).headD [] := by
    rw [searchToken, hselector, Text.words_squeeze]
  exact ⟨⟨site, block, rule, group, hholds, rfl, splitSelectors_narrow hgroup,
    units_pieces_narrow hgroup block.query index⟩, rfl, hselector, hword⟩

/-- Three selectors: two names that an empty comment keeps apart, one that ends in a lone backslash, and
one with a run of blanks. -/
def edgedSource : Text :=
  "@media x\x7bp/**/q,r \\\n,s  >t\x7bu:v\x7d\x7d"

/-- The three units of the source. -/
theorem narrowed_agree_edged :
    ∃ nodes, parse edgedSource = .ok nodes ∧
      (unitsOf nodes).map (fun unit => unit.rule.write) = ["p/**/q {u:v}", "r \\\n {u:v}", "s  >t {u:v}"] ∧
      (unitsOf nodes).map StyleUnit.selector = ["p/**/q", "r \\", "s >t"] ∧
      ∀ unit ∈ unitsOf nodes, ∃ group, splitSelectors unit.rule.prelude = [group] ∧
        unit.selector = Text.squeeze (writeTokens unit.rule.prelude) := by
  have hread : (parse edgedSource).map (fun nodes =>
      ((unitsOf nodes).map (fun unit => unit.rule.write), (unitsOf nodes).map StyleUnit.selector)) =
      .ok (["p/**/q {u:v}", "r \\\n {u:v}", "s  >t {u:v}"], ["p/**/q", "r \\", "s >t"]) := by
    decide +kernel
  obtain ⟨nodes, hnodes, hunits⟩ := exists_of_map_eq_ok hread
  obtain ⟨hrules, hselectors⟩ := Prod.mk.inj hunits
  refine ⟨nodes, hnodes, hrules, hselectors, fun unit hunit => ?_⟩
  obtain ⟨⟨_, _, _, group, -, -, hgroup, -⟩, -, hselector, -⟩ := narrowed_agree nodes unit hunit
  exact ⟨group, hgroup, hselector⟩

end StyleOrigin
