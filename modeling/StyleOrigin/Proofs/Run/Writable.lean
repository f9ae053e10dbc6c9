import StyleOrigin.Proofs.Css.Trees
import StyleOrigin.Run

/-! # What is kept can be written

Among the nodes of a stylesheet, and of a media block too, may be the place of a rule without a block,
which cannot be written. Nothing that is kept of a stylesheet has such a place in it, at any depth: the
selection of the units, their rules, and the fragments of a report are the same by a writer that fails
where a block is missing.

* `flatten`, `flatten_eq`: the units, selected with that writer.
* `Fragment.tree`, `write_tree_fragment`: a fragment as a tree.
* `isOk_writeNodes`: the nodes that can be written.
* `kept_is_writable`: the nodes of a source, their units, and the fragments of a report.
-/
set_option autoImplicit false

namespace StyleOrigin

open Css

/-! ## Units -/

/-- The units of a rule but for their indices, by the writer that can fail. -/
def Css.Rule.select (rule : Rule) (query : Text) : Except WriteFault (List (Nat → StyleUnit)) :=
  (splitSelectors rule.prelude).mapM fun group => do
    let selector ← writeTrees (trees group)
    return fun index => ⟨Text.squeeze selector, query, rule.narrow group, index, none⟩

def MediaBlock.select (block : MediaBlock) : Except WriteFault (List (Nat → StyleUnit)) := do
  let condition ← writeTrees (trees block.prelude)
  let units ← block.rules.mapM (·.select (Text.squeeze condition))
  return units.flatten

/-- The units of the nodes of a stylesheet, by the writer that can fail. -/
def flatten (nodes : List Node) : Except WriteFault (List StyleUnit) := do
  let units ← (mediaBlocks nodes).mapM MediaBlock.select
  return units.flatten.mapIdx fun index unit => unit index

theorem select_rule (rule : Rule) (query : Text) :
    rule.select query = .ok ((rule.pieces query).map fun piece index => piece.unit index) := by
  rw [Rule.pieces, List.map_map]
  refine mapM_eq_ok_map (fun group => ?_) _
  rw [writeTrees_trees]
  rfl

theorem select_block (block : MediaBlock) :
    block.select = .ok (block.pieces.map fun piece index => piece.unit index) := by
  rw [MediaBlock.select, writeTrees_trees, MediaBlock.pieces, List.map_flatMap, List.flatMap]
  change (block.rules.mapM (·.select block.query) >>= fun units => pure units.flatten) = _
  rw [mapM_eq_ok_map fun rule => select_rule rule block.query]
  rfl

/-- No block is missing in what is written for the units. -/
theorem flatten_eq (nodes : List Node) : flatten nodes = .ok (unitsOf nodes) := by
  rw [flatten, mapM_eq_ok_map select_block, unitsOf]
  change Except.ok (List.mapIdx _ _) = _
  rw [← List.flatMap, ← List.map_flatMap]
  exact congrArg Except.ok (List.ext_getElem (by simp) fun index _ _ => by simp)

/-! ## Fragments -/

namespace Fragment

/-- A fragment as one at-rule, with white space around its condition and its rules. -/
def tree (fragment : Fragment) : Tree :=
  .atRule "media" (trees (space :: fragment.condition ++ [space]))
    (fragment.rules.flatMap (fun rule => [.leaf (.whitespace "\n  "), rule.tree]) ++
      [.leaf (.whitespace "\n")])

end Fragment

/-- The rules of a fragment, behind something that white space need not be kept apart from. -/
theorem writeTreesFrom_rules (before : Option Kind) (hbefore : ∀ token, separator before token = [])
    (rules : List Rule) :
    writeTreesFrom before (rules.flatMap (fun rule => [.leaf (.whitespace "\n  "), rule.tree]) ++
      [.leaf (.whitespace "\n")]) = .ok (rules.flatMap Fragment.writeRule ++ ['\n']) := by
  induction rules generalizing before with
  | nil =>
    simp only [List.flatMap_nil, List.nil_append, writeTreesFrom, Tree.write, hbefore]
    rfl
  | cons rule rest ih =>
    have hrest := ih (some .other) separator_other
    have hfaces : (Tree.leaf (.whitespace "\n  ")).face.kind = .other ∧ rule.tree.face.kind = .other :=
      ⟨rfl, rfl⟩
    simp only [List.flatMap_cons, List.cons_append, List.nil_append, writeTreesFrom, hfaces,
      write_tree_rule, hrest, Tree.write, hbefore, separator_other, Fragment.writeRule, List.append_assoc]
    rfl

theorem write_tree_fragment (fragment : Fragment) : fragment.tree.write = .ok fragment.write := by
  have hname : encodeIdent "media" = "media" := by decide
  have hwrite : fragment.write =
      "@media".toList ++ writeTokensFrom none (Fragment.space :: fragment.condition ++ [Fragment.space])
        ++ '{' :: fragment.rules.flatMap Fragment.writeRule ++ "\n\x7d".toList := rfl
  simp only [Fragment.tree, Tree.write, writeTreesFrom_trees,
    writeTreesFrom_rules none fun _ => rfl, bind, Except.bind, pure, Except.pure, hname]
  rw [hwrite]
  generalize writeTokensFrom none (Fragment.space :: fragment.condition ++ [Fragment.space]) = condition
  generalize fragment.rules.flatMap Fragment.writeRule = rules
  simp

/-! ## Nodes -/

theorem kind_face_node (node : Node) : node.tree.face.kind = .other := by
  cases node with
  | styleRule rule => rfl
  | blockless position => rfl
  | atRule rule =>
    rw [Node.tree, AtRule.tree]
    cases rule.body <;> rfl

theorem writeTreesFrom_nodes (before : Option Kind) (hbefore : ∀ token, separator before token = [])
    (nodes : List Node) : writeTreesFrom before (nodes.map Node.tree) = writeNodes nodes := by
  induction nodes generalizing before with
  | nil => rfl
  | cons node rest ih =>
    rw [List.map_cons, writeTreesFrom, write_tree_node, kind_face_node, ih _ separator_other, hbefore,
      writeNodes, writeNodes, List.mapM_cons]
    cases node.write with
    | error fault => rfl
    | ok written => cases rest.mapM Node.write <;> rfl

/-- Nodes can be written if no rule among them is without a block. -/
theorem isOk_writeNodes (nodes : List Node) :
    (writeNodes nodes).isOk = true ↔ ∀ position, .blockless position ∉ nodes := by
  rw [← writeTreesFrom_nodes none fun _ => rfl, isOk_writeTreesFrom]
  induction nodes with
  | nil => simp [areWhole]
  | cons node rest ih =>
    rw [List.map_cons, areWhole, Bool.and_eq_true, isWhole_node_iff, ih]
    simp [not_or, forall_and, eq_comm]

/-! ## What is kept -/

/-- The nodes of a source can be written only if no rule among them is without a block, and so it is with
the nodes in a media block. Where nodes were read, only the last one of them can be without a block, and
no block is missing inside of the others, at any depth. The units, their rules and the fragments of any
report can always be written. -/
theorem kept_is_writable (nodes : List Node) :
    flatten nodes = .ok (unitsOf nodes) ∧
    (∀ unit ∈ unitsOf nodes, unit.rule.tree.write = .ok unit.rule.write) ∧
    (∀ arrived unitCount report, (Ledger.empty.addAll arrived).reportFor unitCount = .ok report →
      ∀ file ∈ report.files, ∀ fragment ∈ file.2, fragment.tree.write = .ok fragment.write) ∧
    ((writeNodes nodes).isOk = true ↔ ∀ position, .blockless position ∉ nodes) ∧
    (∀ block ∈ mediaBlocks nodes, ((writeNodes (Css.nodes block.body)).isOk = true ↔
      ∀ position, .blockless position ∉ Css.nodes block.body)) ∧
    (∀ source, parse source = .ok nodes → ∀ node ∈ nodes.dropLast, node.tree.isWhole = true) ∧
    ∀ block ∈ mediaBlocks nodes, areWhole (trees block.prelude) = true ∧
      ∀ node ∈ (Css.nodes block.body).dropLast, node.tree.isWhole = true :=
  ⟨flatten_eq nodes, fun unit _ => write_tree_rule unit.rule,
    fun _ _ _ _ _ _ fragment _ => write_tree_fragment fragment, isOk_writeNodes nodes,
    fun block _ => isOk_writeNodes (Css.nodes block.body), fun _ => isWhole_of_parse,
    fun block _ => ⟨areWhole_trees block.prelude, fun _ => isWhole_of_mem_dropLast_nodesFrom⟩⟩

/-- A rule and a place of a missing block, in a media block and behind it. -/
def brokenSource : Text :=
  "@media print{.a{b:c} x} y"

/-- The resolution of a unit that is found in one file. -/
def foundIn (path : Text) (unit : StyleUnit) : Resolution :=
  ⟨{ unit with origins := some [path] }, .resolved, unit.token, []⟩

/-- Its one unit is kept in a report, while neither list of nodes can be written. -/
theorem kept_is_writable_broken :
    ∃ nodes report, parse brokenSource = .ok nodes ∧ (writeNodes nodes).isOk = false ∧
      (mediaBlocks nodes).map (fun block => (writeNodes (Css.nodes block.body)).isOk) = [false] ∧
      flatten nodes = .ok (unitsOf nodes) ∧
      (Ledger.empty.addAll ((unitsOf nodes).map (foundIn "a.less"))).reportFor 1 = .ok report ∧
      report.files.length = 1 ∧
      ∀ file ∈ report.files, ∀ fragment ∈ file.2, fragment.tree.write = .ok fragment.write := by
  have hread : (parse brokenSource).map (fun nodes => ((writeNodes nodes).isOk,
      (mediaBlocks nodes).map (fun block => (writeNodes (Css.nodes block.body)).isOk),
      ((Ledger.empty.addAll ((unitsOf nodes).map (foundIn "a.less"))).reportFor 1).toOption.map
        fun report => report.files.length)) = .ok (false, [false], some 1) := by decide +kernel
  obtain ⟨nodes, hnodes, hall⟩ := exists_of_map_eq_ok hread
  obtain ⟨hwrite, hblocks, hfiles⟩ : _ ∧ _ ∧ _ := by simpa only [Prod.mk.injEq] using hall
  obtain ⟨hflatten, -, hfragments, -⟩ := kept_is_writable nodes
  cases hreport : (Ledger.empty.addAll ((unitsOf nodes).map (foundIn "a.less"))).reportFor 1 with
  | error fault =>
    rw [hreport] at hfiles
    exact absurd hfiles (by simp [Except.toOption])
  | ok report =>
    rw [hreport] at hfiles
    exact ⟨nodes, report, hnodes, hwrite, hblocks, hflatten, hreport, Option.some.inj hfiles,
      hfragments _ _ _ hreport⟩

end StyleOrigin
