import StyleOrigin.Media.Block

/-!
Fragments: media blocks put together from a query and style rules, to be written out.

* `Fragment.make`: the fragment of a query and rules. The query is read into tokens again, which
  fails where it holds an integer that is too long.
* `Fragment.write`: the text of a fragment, one rule a line.
-/
set_option autoImplicit false

namespace StyleOrigin

open Css

/-- A media block to be written: its query, the tokens of the query, and its rules. -/
structure Fragment where
  query : Text
  condition : List Token
  rules : List Rule
deriving Repr

namespace Fragment

def make (query : Text) (rules : List Rule) : Except OverlongInteger Fragment :=
  (tokens true query).map fun condition => ⟨query, condition, rules⟩

/-- The single space around the condition of a fragment. -/
def space : Token :=
  .leaf .start (.whitespace [' '])

/-- One rule of a fragment on a line of its own, indented by two spaces. -/
def writeRule (rule : Rule) : Text :=
  "\n  " ++ rule.write

def write (fragment : Fragment) : Text :=
  "@media" ++ writeTokens (space :: fragment.condition ++ [space])
    ++ '{' :: fragment.rules.flatMap writeRule ++ "\n\x7d"

end Fragment
end StyleOrigin
