import StyleOrigin.Text.Basic

/-!
The lines of a text. A carriage return with a line feed is one break, and a break at the very end
starts no further line.

* `Text.lines`: the lines, without their breaks.
-/
set_option autoImplicit false

namespace StyleOrigin.Text

def isLineBreak (c : Char) : Bool :=
  let n := c.toNat
  (0x0A ≤ n && n ≤ 0x0D) || (0x1C ≤ n && n ≤ 0x1E) || n == 0x85 || n == 0x2028 || n == 0x2029

def lines (text : Text) : List Text :=
  let pieces := splitWhere isLineBreak (unifyLineEnds text)
  if pieces.getLast? = some [] then pieces.dropLast else pieces

end StyleOrigin.Text
