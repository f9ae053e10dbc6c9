import StyleOrigin.Proofs.Css.Nodes

/-! # The first block of a stylesheet

The first block ends at the first curly group that stands in no other group. What comes behind it is read
without regard to what the block belongs to.

* `Settles`, `settles`: what stands in front of a sequence, and how a group was opened, makes no difference
  to the tokens behind it.
* `behindCurly`: the tokens behind the first curly group, and the lexemes that do not change them.
* `behindBlock`, `behindBlock_nodesFrom`: the nodes behind the first one with a block.
-/
set_option autoImplicit false

namespace StyleOrigin.Css

/-! ## Nesting behind other tokens -/

theorem finishAll_bottom (groups : List OpenGroup) (content : List Token) :
    ∃ inside, ∀ group : OpenGroup,
      (groups ++ [group]).foldl (fun content group => group.finish content) content =
        group.finish inside := by
  refine ⟨groups.foldl (fun content group => group.finish content) content, fun group => ?_⟩
  rw [List.foldl_append]
  rfl

/-- The tokens in front of a sequence stay as they are. The outermost open group becomes a token behind
those in front of it, and neither what is in it nor what is behind it depends on how it was opened, as
long as the same bracket closes it. -/
structure Settles (lexemes : List (Position × Lexeme)) : Prop where
  behindTokens (content : List Token) : nestFrom [] content lexemes = content.reverse ++ nest lexemes
  behindGroups (groups : List OpenGroup) (content : List Token) (bracket : Bracket) :
    ∃ inside more, ∀ group : OpenGroup, group.opening.closedBy = bracket →
      nestFrom (groups ++ [group]) content lexemes =
        group.before.reverse ++ .group group.position group.opening inside :: more

theorem settles_nil : Settles [] where
  behindTokens content := by simp [nest, nestFrom]
  behindGroups groups content bracket := by
    obtain ⟨inside, hinside⟩ := finishAll_bottom groups content
    refine ⟨inside.reverse, [], fun group _ => ?_⟩
    rw [nestFrom_nil, hinside, OpenGroup.finish, List.reverse_cons]

namespace Settles
variable {position : Position} {rest : List (Position × Lexeme)}

theorem leaf (value : Leaf) (h : Settles rest) : Settles ((position, .leaf value) :: rest) where
  behindTokens content := by
    rw [nest, nestFrom_leaf, nestFrom_leaf, h.behindTokens, h.behindTokens]
    simp
  behindGroups groups content bracket := by
    obtain ⟨inside, more, hmore⟩ := h.behindGroups groups (.leaf position value :: content) bracket
    exact ⟨inside, more, fun group hgroup => (nestFrom_leaf _ _ _ _ _).trans (hmore group hgroup)⟩

theorem opens (opening : Opening) (h : Settles rest) :
    Settles ((position, .opens opening) :: rest) where
  behindTokens content := by
    obtain ⟨inside, more, hmore⟩ := h.behindGroups [] [] opening.closedBy
    have hopened := hmore ⟨position, opening, content⟩ rfl
    have hfirst := hmore ⟨position, opening, []⟩ rfl
    exact hopened.trans (congrArg (content.reverse ++ ·) hfirst.symm)
  behindGroups groups content bracket := by
    obtain ⟨inside, more, hmore⟩ :=
      h.behindGroups (⟨position, opening, content⟩ :: groups) [] bracket
    exact ⟨inside, more, fun group hgroup => (nestFrom_opens _ _ _ _ _).trans (hmore group hgroup)⟩

/-- A bracket ends the group inside the others, or the outermost one, or none at all. -/
theorem closes (bracket : Bracket) (h : Settles rest) :
    Settles ((position, .closes bracket) :: rest) where
  behindTokens content := by
    rw [nest, nestFrom, nestFrom, h.behindTokens, h.behindTokens]
    simp
  behindGroups groups content ending := by
    let flaw : Token := .leaf position (.flaw (.unmatched bracket))
    cases groups with
    | nil =>
      by_cases hends : ending = bracket
      · refine ⟨content.reverse, nest rest, fun group hgroup => ?_⟩
        rw [List.nil_append, nestFrom, if_pos (hgroup.trans hends), h.behindTokens, OpenGroup.finish]
        simp
      · obtain ⟨inside, more, hmore⟩ := h.behindGroups [] (flaw :: content) ending
        refine ⟨inside, more, fun group hgroup => ?_⟩
        rw [List.nil_append, nestFrom, if_neg fun heq => hends (hgroup.symm.trans heq)]
        exact hmore group hgroup
    | cons first groups =>
      by_cases hends : first.opening.closedBy = bracket
      · obtain ⟨inside, more, hmore⟩ := h.behindGroups groups (first.finish content) ending
        refine ⟨inside, more, fun group hgroup => ?_⟩
        rw [List.cons_append, nestFrom, if_pos hends]
        exact hmore group hgroup
      · obtain ⟨inside, more, hmore⟩ := h.behindGroups (first :: groups) (flaw :: content) ending
        refine ⟨inside, more, fun group hgroup => ?_⟩
        rw [List.cons_append, nestFrom, if_neg hends]
        exact hmore group hgroup

end Settles

theorem settles (lexemes : List (Position × Lexeme)) : Settles lexemes := by
  induction lexemes with
  | nil => exact settles_nil
  | cons found rest ih =>
    obtain ⟨position, lexeme⟩ := found
    cases lexeme with
    | leaf value => exact ih.leaf value
    | opens opening => exact ih.opens opening
    | closes bracket => exact ih.closes bracket

theorem nest_leaf (position : Position) (value : Leaf) (rest : List (Position × Lexeme)) :
    nest ((position, .leaf value) :: rest) = .leaf position value :: nest rest :=
  (settles rest).behindTokens [.leaf position value]

/-- Groups that the same bracket closes have the same tokens behind them. -/
theorem exists_nest_opens (bracket : Bracket) (rest : List (Position × Lexeme)) :
    ∃ inside more, ∀ (position : Position) (opening : Opening), opening.closedBy = bracket →
      nest ((position, .opens opening) :: rest) = .group position opening inside :: more := by
  obtain ⟨inside, more, hmore⟩ := (settles rest).behindGroups [] [] bracket
  exact ⟨inside, more, fun position opening => hmore ⟨position, opening, []⟩⟩

/-! ## Behind the first curly group -/

/-- The tokens behind the first curly group. -/
def behindCurly (tokens : List Token) : List Token :=
  (tokens.dropWhile fun token => token.curlyContent?.isNone).tail

theorem behindCurly_cons_of_none {token : Token} (h : token.curlyContent? = none) (rest : List Token) :
    behindCurly (token :: rest) = behindCurly rest := by
  rw [behindCurly, List.dropWhile_cons_of_pos (by simp [h])]
  rfl

theorem behindCurly_cons_of_some {token : Token} {body : List Token}
    (h : token.curlyContent? = some body) (rest : List Token) : behindCurly (token :: rest) = rest := by
  rw [behindCurly, List.dropWhile_cons_of_neg (by simp [h])]
  rfl

theorem behindCurly_nest_leaf (position : Position) (value : Leaf) (rest : List (Position × Lexeme)) :
    behindCurly (nest ((position, .leaf value) :: rest)) = behindCurly (nest rest) := by
  rw [nest_leaf, behindCurly_cons_of_none rfl]

/-- A function and a round bracket have the same tokens behind them. -/
theorem behindCurly_nest_function (position place : Position) (name : Text)
    (rest : List (Position × Lexeme)) :
    behindCurly (nest ((position, .opens (.function name)) :: rest)) =
      behindCurly (nest ((place, .opens (.bracket .round)) :: rest)) := by
  obtain ⟨inside, more, hmore⟩ := exists_nest_opens .round rest
  rw [hmore position (.function name) rfl, hmore place (.bracket .round) rfl,
    behindCurly_cons_of_none rfl, behindCurly_cons_of_none rfl]

/-! ## Behind the first block -/

def Node.hasBlock : Node → Bool
  | .styleRule _ => true
  | .atRule rule => rule.body.isSome
  | .blockless _ => false

/-- The nodes behind the first one with a block. -/
def behindBlock (nodes : List Node) : List Node :=
  (nodes.dropWhile fun node => !node.hasBlock).tail

theorem behindBlock_cons_of_hasBlock {node : Node} (h : node.hasBlock = true) (rest : List Node) :
    behindBlock (node :: rest) = rest := by
  rw [behindBlock, List.dropWhile_cons_of_neg (by simp [h])]
  rfl

theorem behindBlock_cons_of_not_hasBlock {node : Node} (h : node.hasBlock = false) (rest : List Node) :
    behindBlock (node :: rest) = behindBlock rest := by
  rw [behindBlock, List.dropWhile_cons_of_pos (by simp [h])]
  rfl

theorem hasBlock_complete (body : List Token) (pending : Pending) :
    (pending.complete body).hasBlock = true := by
  cases pending <;> rfl

theorem hasBlock_abandon (pending : Pending) : pending.abandon.hasBlock = false := by
  cases pending <;> rfl

theorem hasBlock_of_completedBy {pending : Pending} {token : Token} {node : Node}
    (h : pending.completedBy? token = some node) : node.hasBlock = false := by
  obtain ⟨position, keyword, prelude, rfl⟩ := Pending.eq_atRule_of_completedBy h
  rfl

/-- The nodes behind the first block are those of the tokens behind the first curly group. -/
theorem behindBlock_nodesFrom {skips : Token → Bool}
    (hskips : ∀ token, skips token = true → token.curlyContent? = none) (pending : Option Pending)
    (tokens : List Token) :
    behindBlock (nodesFrom skips pending tokens) = nodesFrom skips none (behindCurly tokens) := by
  induction tokens generalizing pending with
  | nil =>
    cases pending with
    | none => rfl
    | some pending => exact behindBlock_cons_of_not_hasBlock (hasBlock_abandon pending) []
  | cons token rest ih =>
    cases hcurly : token.curlyContent? with
    | some body =>
      have hshown : ¬ skips token = true := fun h => absurd (hskips token h) (by simp [hcurly])
      rw [behindCurly_cons_of_some hcurly]
      cases pending with
      | none =>
        rw [nodesFrom, if_neg hshown, hcurly]
        exact behindBlock_cons_of_hasBlock rfl _
      | some pending =>
        rw [nodesFrom, hcurly]
        exact behindBlock_cons_of_hasBlock (hasBlock_complete body pending) _
    | none =>
      rw [behindCurly_cons_of_none hcurly]
      cases pending with
      | none =>
        rw [nodesFrom, hcurly]
        split
        · exact ih none
        · exact ih _
      | some pending =>
        rw [nodesFrom, hcurly]
        cases hcompleted : pending.completedBy? token with
        | none => exact ih _
        | some node =>
          exact (behindBlock_cons_of_not_hasBlock (hasBlock_of_completedBy hcompleted) _).trans (ih none)

theorem curlyContent_of_isPassedAtTop {token : Token} (h : isPassedAtTop token = true) :
    token.curlyContent? = none := by
  cases token with
  | leaf => rfl
  | group => exact absurd h (by simp [isPassedAtTop, Token.isGap, Token.isLiteral])

/-- A style rule that has begun gets the first block. -/
theorem find_hasBlock_of_styleRule {skips : Token → Bool} (position : Position) (last : Token)
    (before tokens : List Token) {node : Node}
    (h : (nodesFrom skips (some (.styleRule position last before)) tokens).find? Node.hasBlock =
      some node) : ∃ rule, node = .styleRule rule := by
  induction tokens generalizing last before with
  | nil => exact absurd h (by simp [nodesFrom, Pending.abandon, Node.hasBlock])
  | cons token rest ih =>
    rw [nodesFrom] at h
    cases hcurly : token.curlyContent? with
    | some body =>
      simp only [hcurly, Pending.complete] at h
      rw [List.find?_cons_of_pos rfl] at h
      exact ⟨_, (Option.some.inj h).symm⟩
    | none =>
      simp only [hcurly, Pending.completedBy?] at h
      exact ih token (last :: before) h

end StyleOrigin.Css
