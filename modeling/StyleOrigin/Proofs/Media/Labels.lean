import StyleOrigin.Proofs.Css.FirstBlock
import StyleOrigin.Proofs.Css.Unplaced
import StyleOrigin.Proofs.Media.Joining
import StyleOrigin.StyleUnit

/-! # Labels of units

A unit is searched for by its selector and put under its query. These two are its label. Labels do not
depend on the places of a source, and they come node by node, so that the first block and the rest of a
stylesheet have labels of their own.

* `StyleUnit.label`, `Node.labels`: the label of a unit, and the labels that a node brings.
* `map_label_unitsOf`: the labels of the units of a stylesheet.
* `labels_unplaced`: nodes without their places have the same labels.
* `flatMap_labels_eq`: the labels of the first block, and those behind it.
-/
set_option autoImplicit false

namespace StyleOrigin

open Css

/-! ## Labels -/

/-- The selector and the query of a unit. -/
def StyleUnit.label (unit : StyleUnit) : Text × Text :=
  (unit.selector, unit.query)

def Css.Rule.labels (query : Text) (rule : Rule) : List (Text × Text) :=
  (splitSelectors rule.prelude).map fun group => (selectorText group, query)

def MediaBlock.labels (block : MediaBlock) : List (Text × Text) :=
  block.rules.flatMap (·.labels block.query)

/-- The labels of the units that a node brings. -/
def Css.Node.labels (node : Node) : List (Text × Text) :=
  node.mediaBlock?.toList.flatMap MediaBlock.labels

theorem map_label_unitsOf (nodes : List Node) :
    (unitsOf nodes).map StyleUnit.label = nodes.flatMap Node.labels := by
  have hpiece : (unitsOf nodes).map StyleUnit.label =
      ((mediaBlocks nodes).flatMap MediaBlock.pieces).map fun piece =>
        (selectorText piece.group, piece.query) := by
    apply List.ext_getElem
    · simp [unitsOf]
    · intro index _ _
      simp [unitsOf, Piece.unit, StyleUnit.label]
  have hblock : ∀ block : MediaBlock, (block.pieces.map fun piece =>
      (selectorText piece.group, piece.query)) = block.labels := by
    intro block
    rw [MediaBlock.pieces, List.map_flatMap, MediaBlock.labels]
    simp [Rule.pieces, Rule.labels, Function.comp_def]
  rw [hpiece, List.map_flatMap, mediaBlocks, List.filterMap_eq_flatMap_toList, List.flatMap_assoc]
  simp only [hblock]
  rfl

/-! ## Places -/

theorem selectorText_unplaced (group : List Token) :
    selectorText (group.map Token.unplaced) = selectorText group := by
  rw [selectorText, writeTokens_unplaced, selectorText]

theorem Css.Rule.labels_unplaced (query : Text) (rule : Rule) :
    rule.unplaced.labels query = rule.labels query := by
  have hgroups : splitSelectors (rule.prelude.map Token.unplaced) =
      (splitSelectors rule.prelude).map (List.map Token.unplaced) :=
    splitSelectors_map (fun token => isLiteral_unplaced token ",") isGap_unplaced rule.prelude
  rw [Rule.labels, Rule.unplaced, hgroups, List.map_map, Rule.labels]
  exact List.map_congr_left fun group _ => by rw [Function.comp_apply, selectorText_unplaced]

theorem rule_unplaced (node : Node) : node.unplaced.rule? = node.rule?.map Rule.unplaced := by
  cases node <;> rfl

theorem MediaBlock.labels_unplaced (position place : Position) (prelude body : List Token) :
    (MediaBlock.mk place (prelude.map Token.unplaced) (body.map Token.unplaced)).labels =
      (MediaBlock.mk position prelude body).labels := by
  have hrules : (MediaBlock.mk place (prelude.map Token.unplaced) (body.map Token.unplaced)).rules =
      (MediaBlock.mk position prelude body).rules.map Rule.unplaced := by
    have hnodes := nodesFrom_unplaced isGap_unplaced none body
    rw [MediaBlock.rules, MediaBlock.rules, Css.nodes, Css.nodes, List.map_filterMap]
    rw [Option.map_none] at hnodes
    rw [← hnodes, List.filterMap_map]
    exact congrArg (List.filterMap · _) (funext rule_unplaced)
  rw [MediaBlock.labels, hrules, List.flatMap_map, MediaBlock.labels, MediaBlock.query,
    writeTokens_unplaced]
  simp only [Rule.labels_unplaced]
  rfl

/-- Nodes have the same labels at other places. -/
theorem labels_unplaced (node : Node) : node.unplaced.labels = node.labels := by
  cases node with
  | styleRule => rfl
  | blockless => rfl
  | atRule rule =>
    obtain ⟨position, keyword, prelude, body⟩ := rule
    cases body with
    | none => rfl
    | some body =>
      rw [Node.labels, Node.labels, Node.unplaced, Option.map_some, Node.mediaBlock?, Node.mediaBlock?]
      split
      · simp only [Option.toList_some, List.flatMap_cons, List.flatMap_nil, List.append_nil]
        exact MediaBlock.labels_unplaced position .start prelude body
      · rfl

/-! ## The first block -/

theorem labels_of_not_hasBlock {node : Node} (h : node.hasBlock = false) : node.labels = [] := by
  cases node with
  | styleRule => rfl
  | blockless => rfl
  | atRule rule =>
    obtain ⟨position, keyword, prelude, body⟩ := rule
    cases body with
    | none => rfl
    | some body => exact absurd h (by simp [Node.hasBlock])

/-- A stylesheet has the labels of its first block, and those behind it. -/
theorem flatMap_labels_eq (nodes : List Node) :
    nodes.flatMap Node.labels =
      (nodes.find? Node.hasBlock).toList.flatMap Node.labels ++
        (behindBlock nodes).flatMap Node.labels := by
  induction nodes with
  | nil => rfl
  | cons node rest ih =>
    cases hblock : node.hasBlock with
    | true =>
      rw [List.find?_cons_of_pos hblock, behindBlock_cons_of_hasBlock hblock]
      simp
    | false =>
      rw [List.find?_cons_of_neg (by simp [hblock]), behindBlock_cons_of_not_hasBlock hblock, ← ih,
        List.flatMap_cons, labels_of_not_hasBlock hblock, List.nil_append]

end StyleOrigin
