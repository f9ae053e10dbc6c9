import StyleOrigin.Proofs.Css.Unseen
import StyleOrigin.Proofs.Run.Searches
import StyleOrigin.Proofs.Run.Survival
import StyleOrigin.Proofs.Text.Words

/-! # The words that are searched for

Each unit is searched for by the first word of its selector. The word holds no blank, but there may be
none: where a selector is made of blanks that are no white space of a stylesheet, and of names without an
empty comment between them, the search is for the empty text.

* `not_isBlank_of_mem_token`, `selector_cases`: the token of a unit, and its selector.
* `token_eq_nil_iff`: the units without a word.
* `search_words`: the words that the units of a source, and the runs on it, are searched for by.
-/
set_option autoImplicit false

namespace StyleOrigin

open Css

/-! ## The word of a unit -/

section Unit
variable {nodes : List Node} {unit : StyleUnit}

/-- The selector of a unit is written from its prelude, but for the space at its end. -/
theorem exists_group_of_mem_unitsOf (h : unit ∈ unitsOf nodes) :
    ∃ group position, unit.rule.prelude = group ++ [.leaf position (.whitespace [' '])] ∧
      unit.selector = Text.squeeze (writeTokens group) := by
  obtain ⟨node, block, rule, group, index, -, -, -, -, rfl⟩ := mem_unitsOf h
  exact ⟨group, rule.position, rfl, rfl⟩

theorem not_isBlank_of_mem_token {c : Char} (h : c ∈ unit.token) : Text.isBlank c = false := by
  rw [StyleUnit.token, searchToken] at h
  cases hwords : Text.words unit.selector with
  | nil => simp [hwords] at h
  | cons word rest =>
    have hword : word ∈ Text.words unit.selector := by simp [hwords]
    exact (Text.mem_words hword).2 c (by simpa [hwords] using h)

theorem selector_cases (h : unit ∈ unitsOf nodes) :
    unit.selector = unit.token ∨
      ∃ c more, Text.isBlank c = false ∧ unit.selector = unit.token ++ ' ' :: c :: more := by
  obtain ⟨group, position, -, hselector⟩ := exists_group_of_mem_unitsOf h
  rw [StyleUnit.token, searchToken, hselector, Text.words_squeeze]
  exact Text.squeeze_cases _

/-- The units without a word are those whose prelude is not seen. -/
theorem token_eq_nil_iff {text : Text} (hparse : parse text = .ok nodes) (h : unit ∈ unitsOf nodes) :
    unit.token = [] ↔ Unseen unit.rule.prelude := by
  have hready := ready_of_mem_unitsOf hparse h
  obtain ⟨group, position, hprelude, hselector⟩ := exists_group_of_mem_unitsOf h
  have hsound : ∀ token ∈ group, token.Sound := fun token htoken =>
    (hready.each token (by rw [hprelude]; exact List.mem_append_left _ htoken)).1
  rw [hprelude, unseen_concat_space, ← blank_writeTokens_iff hsound, ← Text.headD_words_eq_nil_iff,
    StyleUnit.token, searchToken, hselector, Text.words_squeeze]

end Unit

/-! ## The words of a run -/

/-- Each unit of a source is searched for by a text without blanks. It is the whole selector, or there is
one space behind it and then more. The text is empty if and only if the prelude of the unit is not seen,
and a run searches for the empty text if and only if there is such a unit. -/
theorem search_words (text : Text) (nodes : List Node) (hparse : parse text = .ok nodes) :
    (∀ unit ∈ unitsOf nodes,
      (∀ c ∈ unit.token, Text.isBlank c = false) ∧
      (unit.selector = unit.token ∨
        ∃ c more, Text.isBlank c = false ∧ unit.selector = unit.token ++ ' ' :: c :: more) ∧
      (unit.token = [] ↔ Unseen unit.rule.prelude)) ∧
    ∀ machine settings provider source resolver deliver,
      Prepared machine settings provider source nodes resolver →
        ((∃ search ∈ (machine.run settings provider source deliver).searches, search.token = []) ↔
          ∃ unit ∈ unitsOf nodes, Unseen unit.rule.prelude) := by
  refine ⟨fun unit hunit => ⟨fun _ => not_isBlank_of_mem_token, selector_cases hunit,
    token_eq_nil_iff hparse hunit⟩, ?_⟩
  intro machine settings provider source resolver deliver hprepared
  rw [hprepared.searches_run]
  constructor
  · rintro ⟨search, hsearch, htoken⟩
    obtain ⟨unit, hunit, rfl⟩ := List.mem_map.mp hsearch
    exact ⟨unit, hunit, (token_eq_nil_iff hparse hunit).mp htoken⟩
  · rintro ⟨unit, hunit, hunseen⟩
    exact ⟨_, List.mem_map_of_mem hunit, (token_eq_nil_iff hparse hunit).mpr hunseen⟩

/-- Two selectors, of three words and of one. -/
def wordySource : Text :=
  "@media print{.nav .item a,b{c:d}}"

/-- Each of them has a word. -/
theorem search_words_descendant :
    ∃ nodes, parse wordySource = .ok nodes ∧
      (unitsOf nodes).map StyleUnit.selector = [".nav .item a", "b"] ∧
      (unitsOf nodes).map StyleUnit.token = [".nav", "b"] ∧
      ∀ unit ∈ unitsOf nodes, ¬ Unseen unit.rule.prelude := by
  have hread : (parse wordySource).map (fun nodes =>
      ((unitsOf nodes).map StyleUnit.selector, (unitsOf nodes).map StyleUnit.token)) =
        .ok ([".nav .item a", "b"], [".nav", "b"]) := by decide +kernel
  obtain ⟨nodes, hnodes, hunits⟩ := exists_of_map_eq_ok hread
  obtain ⟨hselectors, htokens⟩ := Prod.mk.inj hunits
  refine ⟨nodes, hnodes, hselectors, htokens, fun unit hunit => ?_⟩
  have hmem : unit.token ∈ (unitsOf nodes).map StyleUnit.token := List.mem_map_of_mem hunit
  rw [htokens] at hmem
  rw [← ((search_words wordySource nodes hnodes).1 unit hunit).2.2]
  rintro hnil
  simp [hnil] at hmem

/-- A selector that is one name of one blank beyond ASCII. -/
def unseenSource : Text :=
  "@media x\x7b\u00a0\x7bb:c\x7d\x7d"

/-- The run on it has one unit, and searches for the empty text. -/
theorem run_searches_for_nothing :
    (bareMachine.run { inputPath := "main.css" } sampleTable.provider (some unseenSource) id).searches =
      [⟨[], none⟩] ∧
    (parse unseenSource).map (fun nodes => (unitsOf nodes).map fun unit => (unit.selector, unit.token)) =
      .ok [([], [])] := by
  decide +kernel

end StyleOrigin
