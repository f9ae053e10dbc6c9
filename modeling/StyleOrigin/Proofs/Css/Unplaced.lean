import StyleOrigin.Proofs.Css.Nodes
import StyleOrigin.Proofs.Css.Trees

/-! # Tokens without their places

What tokens are made of lexemes, where rules begin and end among them, and how they are written does not
depend on the places that they have in a source.

* `Token.unplaced`, `Node.unplaced`: tokens and nodes without their places.
* `nest_unplaced`, `nodesFrom_unplaced`: nesting lexemes and reading rules without places.
* `writeTokens_unplaced`: writing without places.
-/
set_option autoImplicit false

namespace StyleOrigin.Css

/-! ## Tokens -/

mutual

/-- A token without its place and the places of the tokens in it. -/
def Token.unplaced : Token → Token
  | .leaf _ value => .leaf .start value
  | .group _ opening content => .group .start opening (unplacedAll content)

def unplacedAll : List Token → List Token
  | [] => []
  | token :: rest => token.unplaced :: unplacedAll rest

end

theorem unplacedAll_eq_map (tokens : List Token) : unplacedAll tokens = tokens.map Token.unplaced := by
  induction tokens with
  | nil => rfl
  | cons token rest ih => rw [unplacedAll, ih, List.map_cons]

theorem Token.unplaced_group (position : Position) (opening : Opening) (content : List Token) :
    (Token.group position opening content).unplaced =
      .group .start opening (content.map Token.unplaced) := by
  rw [Token.unplaced, unplacedAll_eq_map]

section Questions
variable (token : Token)

theorem isLiteral_unplaced (text : Text) : token.unplaced.isLiteral text = token.isLiteral text := by
  cases token with
  | group => rfl
  | leaf position value => cases value <;> rfl

theorem isGap_unplaced : token.unplaced.isGap = token.isGap := by
  cases token with
  | group => rfl
  | leaf position value => cases value <;> rfl

theorem isPassedAtTop_unplaced : isPassedAtTop token.unplaced = isPassedAtTop token := by
  simp only [isPassedAtTop, isGap_unplaced, isLiteral_unplaced]

theorem position_unplaced : token.unplaced.position = .start := by
  cases token <;> rfl

theorem curlyContent_unplaced :
    token.unplaced.curlyContent? = token.curlyContent?.map (List.map Token.unplaced) := by
  cases token with
  | leaf => rfl
  | group position opening content =>
    rw [Token.unplaced_group]
    cases opening with
    | function => rfl
    | bracket bracket => cases bracket <;> rfl

end Questions

/-- A tree has no places, so the tree of a token is the same without them. -/
theorem trees_unplaced (tokens : List Token) : trees (tokens.map Token.unplaced) = trees tokens := by
  induction tokens using tokens_induction with
  | nil => rfl
  | leaf position value rest ih =>
    rw [List.map_cons, trees, ih, trees, Token.unplaced, Token.tree, Token.tree]
  | group position opening content rest ihcontent ih =>
    rw [List.map_cons, trees, ih, trees, Token.unplaced_group, Token.tree, ihcontent, Token.tree]

theorem writeTokens_unplaced (tokens : List Token) :
    writeTokens (tokens.map Token.unplaced) = writeTokens tokens := by
  have h := (writeTrees_trees (tokens.map Token.unplaced)).symm.trans
    ((congrArg writeTrees (trees_unplaced tokens)).trans (writeTrees_trees tokens))
  exact Except.ok.inj h

/-! ## Nesting -/

def OpenGroup.unplaced (group : OpenGroup) : OpenGroup :=
  ⟨.start, group.opening, group.before.map Token.unplaced⟩

theorem OpenGroup.finish_unplaced (group : OpenGroup) (content : List Token) :
    (group.finish content).map Token.unplaced =
      group.unplaced.finish (content.map Token.unplaced) := by
  rw [finish, List.map_cons, Token.unplaced_group, List.map_reverse]
  rfl

theorem finishAll_unplaced (groups : List OpenGroup) (content : List Token) :
    (groups.foldl (fun content group => group.finish content) content).map Token.unplaced =
      (groups.map OpenGroup.unplaced).foldl (fun content group => group.finish content)
        (content.map Token.unplaced) := by
  induction groups generalizing content with
  | nil => rfl
  | cons group groups ih =>
    rw [List.foldl_cons, ih, OpenGroup.finish_unplaced, List.map_cons, List.foldl_cons]

theorem nestFrom_unplaced (groups : List OpenGroup) (content : List Token)
    (lexemes : List (Position × Lexeme)) :
    (nestFrom groups content lexemes).map Token.unplaced =
      nestFrom (groups.map OpenGroup.unplaced) (content.map Token.unplaced)
        (placed (lexemes.map (·.2))) := by
  induction lexemes generalizing groups content with
  | nil =>
    have h := congrArg List.reverse (finishAll_unplaced groups content)
    rw [nestFrom_nil, List.map_reverse, h]
    exact (nestFrom_nil _ _).symm
  | cons found rest ih =>
    obtain ⟨position, lexeme⟩ := found
    cases lexeme with
    | leaf value =>
      rw [nestFrom_leaf, ih]
      exact (nestFrom_leaf _ _ _ _ _).symm
    | opens opening =>
      rw [nestFrom_opens, ih]
      exact (nestFrom_opens _ _ _ _ _).symm
    | closes bracket =>
      cases groups with
      | nil => exact ih [] _
      | cons group groups =>
        by_cases hends : group.opening.closedBy = bracket
        · rw [nestFrom, if_pos hends, ih, OpenGroup.finish_unplaced]
          exact (if_pos hends).symm
        · rw [nestFrom, if_neg hends, ih]
          exact (if_neg hends).symm

/-- The tokens of lexemes, without their places, are those of the lexemes without their places. -/
theorem nest_unplaced (lexemes : List (Position × Lexeme)) :
    (nest lexemes).map Token.unplaced = nest (placed (lexemes.map (·.2))) :=
  nestFrom_unplaced [] [] lexemes

/-! ## Nodes -/

def Rule.unplaced (rule : Rule) : Rule :=
  ⟨.start, rule.prelude.map Token.unplaced, rule.body.map Token.unplaced⟩

def Node.unplaced : Node → Node
  | .styleRule rule => .styleRule rule.unplaced
  | .atRule ⟨_, keyword, prelude, body⟩ =>
    .atRule ⟨.start, keyword, prelude.map Token.unplaced, body.map (List.map Token.unplaced)⟩
  | .blockless _ => .blockless .start

namespace Pending

def unplaced : Pending → Pending
  | styleRule _ last before => styleRule .start last.unplaced (before.map Token.unplaced)
  | atRule _ keyword prelude => atRule .start keyword (prelude.map Token.unplaced)

theorem begin_unplaced (token : Token) : (begin token).unplaced = begin token.unplaced := by
  cases token with
  | group position opening content =>
    rw [Token.unplaced_group]
    simp only [begin, unplaced, Token.unplaced_group]
    rfl
  | leaf position value => cases value <;> rfl

theorem push_unplaced (token : Token) (pending : Pending) :
    (pending.push token).unplaced = pending.unplaced.push token.unplaced := by
  cases pending <;> rfl

theorem complete_unplaced (body : List Token) (pending : Pending) :
    (pending.complete body).unplaced = pending.unplaced.complete (body.map Token.unplaced) := by
  cases pending with
  | styleRule => simp [complete, unplaced, Node.unplaced, Rule.unplaced]
  | atRule => simp [complete, unplaced, Node.unplaced]

theorem abandon_unplaced (pending : Pending) : pending.abandon.unplaced = pending.unplaced.abandon := by
  cases pending with
  | styleRule => simp [abandon, unplaced, Node.unplaced, position_unplaced]
  | atRule => simp [abandon, unplaced, Node.unplaced]

theorem completedBy_unplaced (token : Token) (pending : Pending) :
    (pending.completedBy? token).map Node.unplaced =
      pending.unplaced.completedBy? token.unplaced := by
  cases pending with
  | styleRule => rfl
  | atRule =>
    simp only [completedBy?, unplaced, isLiteral_unplaced]
    split
    · simp [Node.unplaced]
    · rfl

end Pending

/-- The nodes of tokens, without their places, are those of the tokens without their places. -/
theorem nodesFrom_unplaced {skips : Token → Bool} (hskips : ∀ token, skips token.unplaced = skips token)
    (pending : Option Pending) (tokens : List Token) :
    (nodesFrom skips pending tokens).map Node.unplaced =
      nodesFrom skips (pending.map Pending.unplaced) (tokens.map Token.unplaced) := by
  induction tokens generalizing pending with
  | nil =>
    cases pending with
    | none => rfl
    | some pending => exact congrArg (fun node => [node]) pending.abandon_unplaced
  | cons token rest ih =>
    cases pending with
    | none =>
      rw [List.map_cons, Option.map_none, nodesFrom, nodesFrom, hskips, curlyContent_unplaced]
      split
      · exact ih none
      · cases token.curlyContent? with
        | some body =>
          rw [Option.map_some, List.map_cons, ih none, position_unplaced]
          rfl
        | none =>
          rw [Option.map_none, ih, Option.map_some, Pending.begin_unplaced]
    | some pending =>
      rw [List.map_cons, Option.map_some, nodesFrom, nodesFrom, curlyContent_unplaced,
        ← Pending.completedBy_unplaced]
      cases token.curlyContent? with
      | some body =>
        rw [Option.map_some, List.map_cons, ih none, Pending.complete_unplaced]
        rfl
      | none =>
        rw [Option.map_none]
        cases pending.completedBy? token with
        | some node => exact congrArg (node.unplaced :: ·) (ih none)
        | none =>
          rw [Option.map_none, ih, Option.map_some, Pending.push_unplaced]

end StyleOrigin.Css
