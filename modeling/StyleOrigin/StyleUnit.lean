import StyleOrigin.Media.Block
import StyleOrigin.Media.Selector
import StyleOrigin.Text.Quoted

/-!
Style units: one selector of one rule inside one media block, which is what gets an origin.

* `unitsOf`: the units of the nodes of a stylesheet, numbered in source order.
* `StyleUnit.withOrigins`: the unit with its candidate origins; they are set only once.
-/
set_option autoImplicit false

namespace StyleOrigin

open Css

/-- One selector of one rule inside one media block. The rule is narrowed to that selector. The index
is the place in source order; the origins are absent until the unit has been searched for. -/
structure StyleUnit where
  selector : Text
  query : Text
  rule : Rule
  index : Nat
  origins : Option (List Text)
deriving Repr

/-- A rule narrowed to one of its selectors, with a space in front of its block. -/
def Css.Rule.narrow (rule : Rule) (group : List Token) : Rule :=
  { rule with prelude := group ++ [.leaf rule.position (.whitespace [' '])] }

/-- One selector group of one rule, under the query of its block. -/
structure Piece where
  query : Text
  rule : Rule
  group : List Token
deriving Repr

def Css.Rule.pieces (rule : Rule) (query : Text) : List Piece :=
  (splitSelectors rule.prelude).map (Piece.mk query rule)

def MediaBlock.pieces (block : MediaBlock) : List Piece :=
  let query := block.query
  block.rules.flatMap (·.pieces query)

def Piece.unit (index : Nat) (piece : Piece) : StyleUnit :=
  ⟨selectorText piece.group, piece.query, piece.rule.narrow piece.group, index, none⟩

/-- The units of the nodes of a stylesheet. Rules outside media blocks bring none. -/
def unitsOf (nodes : List Node) : List StyleUnit :=
  ((mediaBlocks nodes).flatMap MediaBlock.pieces).mapIdx Piece.unit

/-- A unit that has origins already cannot be given any. -/
structure AlreadyResolved where
  selector : Text
deriving DecidableEq, Repr

def AlreadyResolved.message (fault : AlreadyResolved) : Text :=
  "Unit " ++ Text.quoted fault.selector ++ " is already resolved"

namespace StyleUnit

def position (unit : StyleUnit) : Position :=
  unit.rule.position

def withOrigins (unit : StyleUnit) (origins : List Text) : Except AlreadyResolved StyleUnit :=
  match unit.origins with
  | some _ => .error ⟨unit.selector⟩
  | none => .ok { unit with origins := some origins }

/-- The word that the unit is searched for by. -/
def token (unit : StyleUnit) : Text :=
  searchToken unit.selector

end StyleUnit
end StyleOrigin
