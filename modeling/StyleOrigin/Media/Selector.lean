import StyleOrigin.Css.Write
import StyleOrigin.Text.Blank

/-!
The selectors of a style rule: the parts of its prelude between commas.

* `splitSelectors`: the token groups of a prelude. A comma inside a bracket or a function is part of
  a nested token and cuts nothing.
* `selectorText`: a group as it is written, with its white space squeezed.
* `searchToken`: the first word of a selector, which stands for it in a search.
-/
set_option autoImplicit false

namespace StyleOrigin

open Css

def isComma (token : Token) : Bool :=
  token.isLiteral ","

/-- The token groups between the commas of a prelude, without the gaps around them and without the
empty ones. -/
def splitSelectors (prelude : List Token) : List (List Token) :=
  ((splitWhere isComma prelude).map (trimWhere Token.isGap)).filter (!·.isEmpty)

def selectorText (group : List Token) : Text :=
  Text.squeeze (writeTokens group)

/-- The first word of a selector: compound and descendant selectors are looked for by it. -/
def searchToken (selector : Text) : Text :=
  (Text.words selector).headD []

end StyleOrigin
