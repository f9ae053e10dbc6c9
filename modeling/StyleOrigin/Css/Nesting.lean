import StyleOrigin.Css.Lexeme
import StyleOrigin.Number.Numeral

/-!
Tokens from lexemes: each opening and its closer become a group around what stands between them.

* `nest`: the tokens of a sequence of lexemes. A closer that does not end the innermost open group is
  a flaw; the end of the source ends all groups.
* `tokens`: the tokens of a source text, unless one of its integers is too long to be read.
* `Lexeme.overlong?`: that one fault of reading, if a lexeme brings it.
-/
set_option autoImplicit false

namespace StyleOrigin.Css

/-! ## Groups -/

/-- A group that is still open: where and how it was opened, and the tokens in front of it in the
group around it, newest first. -/
structure OpenGroup where
  position : Position
  opening : Opening
  before : List Token
deriving Repr

/-- Ends a group around its content, newest first: the group joins the tokens in front of it. -/
def OpenGroup.finish (group : OpenGroup) (content : List Token) : List Token :=
  .group group.position group.opening content.reverse :: group.before

/-- The tokens of a sequence of lexemes behind open groups, innermost first, and behind the tokens of
the innermost one, newest first. -/
def nestFrom : List OpenGroup → List Token → List (Position × Lexeme) → List Token
  | groups, content, [] => (groups.foldl (fun content group => group.finish content) content).reverse
  | groups, content, (position, .leaf value) :: rest =>
    nestFrom groups (.leaf position value :: content) rest
  | groups, content, (position, .opens opening) :: rest =>
    nestFrom (⟨position, opening, content⟩ :: groups) [] rest
  | [], content, (position, .closes bracket) :: rest =>
    nestFrom [] (.leaf position (.flaw (.unmatched bracket)) :: content) rest
  | group :: groups, content, (position, .closes bracket) :: rest =>
    if group.opening.closedBy = bracket then nestFrom groups (group.finish content) rest
    else nestFrom (group :: groups) (.leaf position (.flaw (.unmatched bracket)) :: content) rest

def nest (lexemes : List (Position × Lexeme)) : List Token :=
  nestFrom [] [] lexemes

/-! ## Reading a source -/

def Leaf.numeral? : Leaf → Option Text
  | .number numeral => some numeral
  | .percentage numeral => some numeral
  | .dimension numeral _ => some numeral
  | _ => none

def Lexeme.overlong? : Lexeme → Option OverlongInteger
  | .leaf value => do
    let digits ← integerDigits? (← value.numeral?)
    OverlongInteger.ofDigits? digits
  | _ => none

def Lexeme.isComment : Lexeme → Bool
  | .leaf (.comment _) => true
  | _ => false

/-- The tokens of a source text, with or without its comments. The first integer that is too long
stops the reading. -/
def tokens (keepComments : Bool) (source : Text) : Except OverlongInteger (List Token) :=
  let all := lexemes source
  match all.findSome? (·.2.overlong?) with
  | some fault => .error fault
  | none => .ok (nest (all.filter fun lexeme => keepComments || !lexeme.2.isComment))

end StyleOrigin.Css
