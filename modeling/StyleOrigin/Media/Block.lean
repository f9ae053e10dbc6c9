import StyleOrigin.Css.Write
import StyleOrigin.Text.Blank

/-!
The media blocks of a stylesheet: its at-rules named `media`, in any case, that have a block.

* `MediaBlock.query`: the condition of a block, with its white space squeezed.
* `MediaBlock.rules`: the style rules directly inside a block.
* `mediaBlocks`: the media blocks among the nodes of a stylesheet.
-/
set_option autoImplicit false

namespace StyleOrigin

open Css

/-- A media block: the tokens of its condition, and the content of its block. -/
structure MediaBlock where
  position : Position
  prelude : List Token
  body : List Token
deriving Repr

def Css.Node.mediaBlock? : Node → Option MediaBlock
  | .atRule ⟨position, keyword, prelude, some body⟩ =>
    if Text.lower keyword = "media" then some ⟨position, prelude, body⟩ else none
  | _ => none

def mediaBlocks (nodes : List Node) : List MediaBlock :=
  nodes.filterMap Node.mediaBlock?

def Css.Node.rule? : Node → Option Rule
  | .styleRule rule => some rule
  | _ => none

namespace MediaBlock

/-- The condition of a media block in words: as it is written, with its white space squeezed. -/
def query (block : MediaBlock) : Text :=
  Text.squeeze (writeTokens block.prelude)

def rules (block : MediaBlock) : List Rule :=
  (nodes block.body).filterMap Node.rule?

end MediaBlock
end StyleOrigin
