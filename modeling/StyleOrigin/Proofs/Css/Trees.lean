import StyleOrigin.Css.Write
import StyleOrigin.Proofs.Css.Rereading
import StyleOrigin.Proofs.Sequence

/-! # Trees and a writer that can fail

A syntax tree may hold anything anywhere: rules inside of brackets, and at any depth what stands for a
rule without a block, which cannot be written. The writer of trees is the writer of tokens and rules for
all of them, and it fails on such a place.

The tokens and the rules of this library are trees of which that is known by their types: a place of a
missing block stands among the nodes of a rule list, and nowhere else. In what is read, only the last node
of a list is such a place.

* `Tree`, `Tree.write`: trees, and their writer.
* `Tree.isWhole`, `isOk_write`: the trees that can be written.
* `Token.tree`, `Rule.tree`, `Node.tree`: tokens, rules and nodes as trees.
* `writeTrees_trees`, `write_tree_rule`, `write_tree_node`: the writers agree on them.
* `areWhole_trees`, `isWhole_of_parse`: the trees of what is read.
-/
set_option autoImplicit false

namespace StyleOrigin.Css

/-! ## Trees -/

/-- Any syntax: a token, a rule, or what stands for a rule without a block, inside of one another. -/
inductive Tree
  | leaf (value : Leaf)
  | group (opening : Opening) (content : List Tree)
  | styleRule (prelude body : List Tree)
  | atRule (keyword : Text) (prelude body : List Tree)
  | statement (keyword : Text) (prelude : List Tree)
  | blockless
deriving Repr

/-- A token that its neighbours meet like the tree: nothing is put around a rule, as around a block. -/
def Tree.face : Tree → Token
  | leaf value => .leaf .start value
  | group opening _ => .group .start opening []
  | _ => .group .start (.bracket .curly) []

mutual

def Tree.endsUnclosed : Tree → Bool
  | .leaf (.flaw .unclosedString) => true
  | .group (.function _) content => lastTreeEndsUnclosed content
  | _ => false

def lastTreeEndsUnclosed : List Tree → Bool
  | [] => false
  | [tree] => tree.endsUnclosed
  | _ :: rest => lastTreeEndsUnclosed rest

end

mutual

/-- A tree in writing. It fails at the place of a missing block, however deep that stands. -/
def Tree.write : Tree → Except WriteFault Text
  | .leaf value => .ok value.write
  | .group (.bracket bracket) content => do
    let inner ← writeTreesFrom none content
    return bracket.opener :: inner ++ [bracket.closer]
  | .group (.function name) content => do
    let inner ← writeTreesFrom none content
    return encodeIdent name ++ '(' :: inner ++ (if lastTreeEndsUnclosed content then [] else [')'])
  | .styleRule prelude body => do
    let front ← writeTreesFrom none prelude
    let inner ← writeTreesFrom none body
    return front ++ ('{' :: inner ++ ['}'])
  | .atRule keyword prelude body => do
    let front ← writeTreesFrom none prelude
    let inner ← writeTreesFrom none body
    return '@' :: encodeIdent keyword ++ front ++ ('{' :: inner ++ ['}'])
  | .statement keyword prelude => do
    let front ← writeTreesFrom none prelude
    return '@' :: encodeIdent keyword ++ front ++ [';']
  | .blockless => .error .blockless

def writeTreesFrom : Option Kind → List Tree → Except WriteFault Text
  | _, [] => .ok []
  | before, tree :: rest => do
    let written ← tree.write
    let others ← writeTreesFrom (some tree.face.kind) rest
    return separator before tree.face ++ written ++ others

end

def writeTrees (trees : List Tree) : Except WriteFault Text :=
  writeTreesFrom none trees

mutual

/-- Whether no block is missing in a tree, at no depth. -/
def Tree.isWhole : Tree → Bool
  | .leaf _ => true
  | .group _ content => areWhole content
  | .styleRule prelude body => areWhole prelude && areWhole body
  | .atRule _ prelude body => areWhole prelude && areWhole body
  | .statement _ prelude => areWhole prelude
  | .blockless => false

def areWhole : List Tree → Bool
  | [] => true
  | tree :: rest => tree.isWhole && areWhole rest

end

mutual

/-- The trees that can be written are those in which no block is missing. -/
theorem isOk_write : ∀ tree : Tree, tree.write.isOk = tree.isWhole
  | .leaf value => rfl
  | .group (.bracket bracket) content => by
    rw [Tree.write, isOk_return, isOk_writeTreesFrom, Tree.isWhole]
  | .group (.function name) content => by
    rw [Tree.write, isOk_return, isOk_writeTreesFrom, Tree.isWhole]
  | .styleRule prelude body => by
    rw [Tree.write, isOk_bind _ _ fun _ => isOk_return _ _, isOk_writeTreesFrom, isOk_writeTreesFrom,
      Tree.isWhole]
  | .atRule keyword prelude body => by
    rw [Tree.write, isOk_bind _ _ fun _ => isOk_return _ _, isOk_writeTreesFrom, isOk_writeTreesFrom,
      Tree.isWhole]
  | .statement keyword prelude => by
    rw [Tree.write, isOk_return, isOk_writeTreesFrom, Tree.isWhole]
  | .blockless => rfl

theorem isOk_writeTreesFrom : ∀ (before : Option Kind) (trees : List Tree),
    (writeTreesFrom before trees).isOk = areWhole trees
  | _, [] => rfl
  | before, tree :: rest => by
    rw [writeTreesFrom, isOk_bind _ _ fun _ => isOk_return _ _, isOk_write, isOk_writeTreesFrom, areWhole]

end

/-! ## Tokens and rules as trees -/

mutual

def Token.tree : Token → Tree
  | .leaf _ value => .leaf value
  | .group _ opening content => .group opening (trees content)

def trees : List Token → List Tree
  | [] => []
  | token :: rest => token.tree :: trees rest

end

def Rule.tree (rule : Rule) : Tree :=
  .styleRule (trees rule.prelude) (trees rule.body)

def AtRule.tree (rule : AtRule) : Tree :=
  match rule.body with
  | some body => .atRule rule.keyword (trees rule.prelude) (trees body)
  | none => .statement rule.keyword (trees rule.prelude)

def Node.tree : Node → Tree
  | .styleRule rule => rule.tree
  | .atRule rule => rule.tree
  | .blockless _ => .blockless

theorem kind_face_tree (token : Token) : token.tree.face.kind = token.kind := by
  cases token with
  | leaf position value => cases value <;> rfl
  | group position opening content =>
    cases opening with
    | bracket bracket => cases bracket <;> rfl
    | function name => rfl

theorem startsWithLineFeed_face_tree (token : Token) :
    token.tree.face.startsWithLineFeed = token.startsWithLineFeed := by
  cases token with
  | group position opening content => rfl
  | leaf position value =>
    rw [Token.tree, Tree.face]
    unfold Token.startsWithLineFeed
    split
    · rename_i heq
      obtain ⟨-, rfl⟩ := Token.leaf.inj heq
      rfl
    · rename_i hne
      split
      · rename_i heq
        obtain ⟨-, rfl⟩ := Token.leaf.inj heq
        exact absurd rfl (hne _ _)
      · rfl

theorem separator_face_tree (before : Option Kind) (token : Token) :
    separator before token.tree.face = separator before token := by
  cases before with
  | none => rfl
  | some before => simp only [separator, kind_face_tree, startsWithLineFeed_face_tree]

theorem lastTreeEndsUnclosed_trees (tokens : List Token) :
    lastTreeEndsUnclosed (trees tokens) = lastEndsUnclosed tokens := by
  induction tokens using tokens_induction with
  | nil => rfl
  | leaf position value rest ih =>
    cases rest with
    | cons next others => exact ih
    | nil =>
      cases value with
      | flaw fault => cases fault <;> rfl
      | _ => rfl
  | group position opening content rest ihcontent ih =>
    cases rest with
    | cons next others => exact ih
    | nil =>
      cases opening with
      | bracket bracket => rfl
      | function name => exact ihcontent

/-- The two writers agree on tokens. -/
theorem writeTreesFrom_trees (before : Option Kind) (tokens : List Token) :
    writeTreesFrom before (trees tokens) = .ok (writeTokensFrom before tokens) := by
  induction tokens using tokens_induction generalizing before with
  | nil => rfl
  | leaf position value rest ih =>
    rw [trees, writeTreesFrom, ih, separator_face_tree, kind_face_tree, writeTokensFrom]
    rfl
  | group position opening content rest ihcontent ih =>
    have hwrite : (Token.group position opening content).tree.write =
        .ok (Token.group position opening content).write := by
      cases opening with
      | bracket bracket =>
        rw [Token.tree, Tree.write, ihcontent, Token.write]
        rfl
      | function name =>
        rw [Token.tree, Tree.write, ihcontent, lastTreeEndsUnclosed_trees, Token.write]
        rfl
    rw [trees, writeTreesFrom, hwrite, ih, separator_face_tree, kind_face_tree, writeTokensFrom]
    rfl

theorem writeTrees_trees (tokens : List Token) : writeTrees (trees tokens) = .ok (writeTokens tokens) :=
  writeTreesFrom_trees none tokens

theorem write_tree_rule (rule : Rule) : rule.tree.write = .ok rule.write := by
  rw [Rule.tree, Tree.write, writeTreesFrom_trees, writeTreesFrom_trees]
  rfl

theorem write_tree_atRule (rule : AtRule) : rule.tree.write = .ok rule.write := by
  obtain ⟨position, keyword, prelude, body⟩ := rule
  cases body with
  | some body =>
    simp only [AtRule.tree, Tree.write, writeTreesFrom_trees]
    rfl
  | none =>
    simp only [AtRule.tree, Tree.write, writeTreesFrom_trees]
    rfl

/-- The two writers agree on nodes, and fail on the same. -/
theorem write_tree_node (node : Node) : node.tree.write = node.write := by
  cases node with
  | styleRule rule => exact write_tree_rule rule
  | atRule rule => exact write_tree_atRule rule
  | blockless position => rfl

/-! ## What is read -/

theorem areWhole_trees (tokens : List Token) : areWhole (trees tokens) = true := by
  rw [← isOk_writeTreesFrom none, writeTreesFrom_trees]
  rfl

theorem isWhole_node_iff {node : Node} :
    node.tree.isWhole = true ↔ ∀ position, node ≠ .blockless position := by
  rw [← isOk_write, write_tree_node]
  cases node <;> simp [Node.write, Except.isOk, Except.toBool]

theorem Pending.isWhole_complete (pending : Pending) (body : List Token) :
    (pending.complete body).tree.isWhole = true := by
  rw [isWhole_node_iff]
  cases pending <;> simp [complete]

theorem Pending.isWhole_of_completedBy {pending : Pending} {token : Token} {node : Node}
    (h : pending.completedBy? token = some node) : node.tree.isWhole = true := by
  rw [isWhole_node_iff]
  rintro position rfl
  cases pending <;> simp [completedBy?] at h

theorem mem_dropLast_cons {α : Type} {a b : α} {rest : List α} (h : a ∈ (b :: rest).dropLast) :
    a = b ∨ a ∈ rest.dropLast := by
  cases rest with
  | nil => simp at h
  | cons c others => simpa using h

/-- Only the last one of the nodes that are read can be without a block. -/
theorem isWhole_of_mem_dropLast_nodesFrom {skips : Token → Bool} {begun : Option Pending}
    {tokens : List Token} {node : Node} (h : node ∈ (nodesFrom skips begun tokens).dropLast) :
    node.tree.isWhole = true := by
  -- along the reader's own steps: a node in front of others was completed by a block or a semicolon
  induction begun, tokens using nodesFrom.induct skips with
  | case1 => simp [nodesFrom] at h
  | case2 pending => simp [nodesFrom] at h
  | case3 token rest hskips ih =>
    rw [nodesFrom, if_pos hskips] at h
    exact ih h
  | case4 token rest hskips body hbody ih =>
    rw [nodesFrom, if_neg hskips, hbody] at h
    obtain rfl | hrest := mem_dropLast_cons h
    · exact isWhole_node_iff.mpr (by simp)
    · exact ih hrest
  | case5 token rest hskips hbody ih =>
    rw [nodesFrom, if_neg hskips, hbody] at h
    exact ih h
  | case6 pending token rest body hbody ih =>
    rw [nodesFrom, hbody] at h
    obtain rfl | hrest := mem_dropLast_cons h
    · exact pending.isWhole_complete body
    · exact ih hrest
  | case7 pending token rest hbody next hnext ih =>
    simp only [nodesFrom, hbody, hnext] at h
    obtain rfl | hrest := mem_dropLast_cons h
    · exact Pending.isWhole_of_completedBy hnext
    · exact ih hrest
  | case8 pending token rest hbody hnext ih =>
    simp only [nodesFrom, hbody, hnext] at h
    exact ih h

/-- The trees of what is read are whole, but for the last node. -/
theorem isWhole_of_parse {source : Text} {nodes : List Node} (h : parse source = .ok nodes) :
    ∀ node ∈ nodes.dropLast, node.tree.isWhole = true := by
  obtain ⟨tokens, -, rfl⟩ := exists_of_map_eq_ok h
  exact fun node => isWhole_of_mem_dropLast_nodesFrom

end StyleOrigin.Css
