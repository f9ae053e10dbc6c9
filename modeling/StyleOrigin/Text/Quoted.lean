import StyleOrigin.Text.Printable
import StyleOrigin.Text.Basic

/-!
The quoted form of a text, as error messages show it: one line between quotation marks, in which
marks, backslashes and characters without a picture are escaped.

* `Text.quoted`: the quoted form.
-/
set_option autoImplicit false

namespace StyleOrigin.Text

/-- The mark around a quoted text: the apostrophe, unless only the double mark saves an escape. -/
def quoteMark (text : Text) : Char :=
  if text.contains '\'' && !text.contains '"' then '"' else '\''

def quotedChar (mark : Char) (c : Char) : Text :=
  if c = mark || c = '\\' then ['\\', c]
  else if c = '\n' then ['\\', 'n']
  else if c = '\r' then ['\\', 'r']
  else if c = '\t' then ['\\', 't']
  else if isPrintable c then [c]
  else
    let code := ofNatHex c.toNat
    if c.toNat < 0x100 then '\\' :: 'x' :: zeroPadded 2 code
    else if c.toNat < 0x10000 then '\\' :: 'u' :: zeroPadded 4 code
    else '\\' :: 'U' :: zeroPadded 8 code

/-- The text between quotation marks, with escapes. -/
def quoted (text : Text) : Text :=
  let mark := quoteMark text
  mark :: text.flatMap (quotedChar mark) ++ [mark]

end StyleOrigin.Text
