import StyleOrigin.Text.Basic

/-!
Blank characters and the two things done with them: cutting a text into words and stripping its ends.

* `Text.isBlank`: the characters that separate words.
* `Text.words`, `Text.squeeze`: the words, and the words with one space between neighbours.
-/
set_option autoImplicit false

namespace StyleOrigin.Text

/-- The characters that separate words: the white space, line and paragraph separators of Unicode and
the ASCII separators from U+001C to U+001F. -/
def isBlank (c : Char) : Bool :=
  let n := c.toNat
  (0x09 ≤ n && n ≤ 0x0D) || (0x1C ≤ n && n ≤ 0x20) || n == 0x85 || n == 0xA0 || n == 0x1680
    || (0x2000 ≤ n && n ≤ 0x200A) || n == 0x2028 || n == 0x2029 || n == 0x202F || n == 0x205F
    || n == 0x3000

/-- The longest pieces of a text that hold no blank. -/
def words (text : Text) : List Text :=
  (splitWhere isBlank text).filter (!·.isEmpty)

/-- The words of a text with one space between neighbours. -/
def squeeze (text : Text) : Text :=
  joinWith [' '] (words text)

def strip (text : Text) : Text :=
  trimWhere isBlank text

end StyleOrigin.Text
