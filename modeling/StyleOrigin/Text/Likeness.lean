import StyleOrigin.Text.Basic

/-!
How alike two texts are, and the texts of a list that come closest to a given one.

The measure takes the longest block of characters that both texts hold, then goes on in what stands
before the block in both and in what stands behind it in both. The likeness is the share of matched
characters among all characters of the two texts.

* `Text.longestBlock`: the longest common block, the leftmost one of several.
* `Text.matched`: the number of matched characters.
* `Text.closest`: the texts of a list that are alike enough, the closest first.
-/
set_option autoImplicit false

namespace StyleOrigin.Text

/-! ## Common blocks -/

/-- A block of characters that two texts hold: where it starts in each, and its length. -/
structure Block where
  first : Nat
  second : Nat
  length : Nat
deriving DecidableEq, Repr

def Block.longer (before found : Block) : Block :=
  if before.length < found.length then found else before

/-- The length of the longest common start of two texts. -/
def commonStart : Text → Text → Nat
  | a :: as, b :: bs => if a = b then commonStart as bs + 1 else 0
  | _, _ => 0

/-- The longest block that starts at the first character of a text and anywhere in another. -/
def longestBlockAt (first : Nat) (text : Text) : Nat → Text → Block → Block
  | _, [], best => best
  | second, b :: bs, best =>
    longestBlockAt first text (second + 1) bs
      (best.longer ⟨first, second, commonStart text (b :: bs)⟩)

/-- The longest block that starts anywhere in a text and in another. -/
def longestBlockFrom (other : Text) : Nat → Text → Block → Block
  | _, [], best => best
  | first, a :: as, best =>
    longestBlockFrom other (first + 1) as (longestBlockAt first (a :: as) 0 other best)

/-- The longest common block of two texts: the one that starts first in the first text, and then first
in the second. -/
def longestBlock (text other : Text) : Block :=
  longestBlockFrom other 0 text ⟨0, 0, 0⟩

/-- The number of matched characters of two texts, the first of which has at most `size` characters. -/
def matchedWithin : Nat → Text → Text → Nat
  | 0, _, _ => 0
  | size + 1, text, other =>
    let block := longestBlock text other
    if block.length = 0 then 0
    else
      block.length + matchedWithin size (text.take block.first) (other.take block.second)
        + matchedWithin size (text.drop (block.first + block.length))
          (other.drop (block.second + block.length))

def matched (text other : Text) : Nat :=
  matchedWithin text.length text other

/-! ## Close texts -/

/-- A text compared with another: the number of matched characters, and of all characters. -/
structure Likeness where
  text : Text
  matched : Nat
  total : Nat
deriving DecidableEq, Repr

def likeness (other text : Text) : Likeness :=
  ⟨text, matched text other, text.length + other.length⟩

namespace Likeness

/-- Whether three fifths of all characters are matched, counting each pair twice. -/
def isClose (likeness : Likeness) : Bool :=
  3 * likeness.total ≤ 10 * likeness.matched

/-- Whether a text goes before another among close ones: the one with the greater share, or else the
one that is later in the order of code points. -/
def goesBefore (a b : Likeness) : Bool :=
  let left := a.matched * b.total
  let right := b.matched * a.total
  if left = right then isAtMost b.text a.text else right < left

end Likeness

/-- The texts of a list that are close to another text, at most `count`, the closest first. -/
def closest (count : Nat) (texts : List Text) (other : Text) : List Text :=
  let close := (texts.map (likeness other)).filter (·.isClose)
  ((close.mergeSort Likeness.goesBefore).take count).map (·.text)

end StyleOrigin.Text
