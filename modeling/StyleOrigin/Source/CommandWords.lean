import StyleOrigin.Text.Basic

/-!
The words of a command line: blanks separate them, and quotation marks and backslashes keep blanks in
them.

* `CommandWords.split`: the words, unless a quotation or an escape is left open.
-/
set_option autoImplicit false

namespace StyleOrigin.CommandWords

inductive Fault
  | quotation
  | escape
deriving DecidableEq, Repr

def Fault.message : Fault → Text
  | quotation => "No closing quotation"
  | escape => "No escaped character"

def isSeparator (c : Char) : Bool :=
  c == ' ' || c == '\t' || c == '\r' || c == '\n'

/-- Where a reader of a command line is: outside marks, inside them, or behind a backslash in either
place. -/
inductive Mode
  | plain
  | quoted (mark : Char)
  | escaped
  | escapedIn (mark : Char)
deriving DecidableEq, Repr

/-- The word that is being read, as a list of words. -/
def finish : Option Text → List Text
  | none => []
  | some word => [word.reverse]

/-- The word that is being read, its characters last first, with one more character. -/
def push (c : Char) (word : Option Text) : Option Text :=
  some (c :: word.getD [])

/-- The words of a command line in the middle of a word (`some`) or between two. Between double marks a
backslash escapes only a double mark and itself; between single ones it is a character. -/
def splitFrom : Mode → Option Text → Text → Except Fault (List Text)
  | .plain, word, [] => .ok (finish word)
  | .quoted _, _, [] => .error .quotation
  | .escaped, _, [] => .error .escape
  | .escapedIn _, _, [] => .error .escape
  | .plain, word, c :: cs =>
    if isSeparator c then (finish word ++ ·) <$> splitFrom .plain none cs
    else if c = '\\' then splitFrom .escaped word cs
    else if c = '"' || c = '\'' then splitFrom (.quoted c) (some (word.getD [])) cs
    else splitFrom .plain (push c word) cs
  | .quoted mark, word, c :: cs =>
    if c = mark then splitFrom .plain word cs
    else if c = '\\' && mark = '"' then splitFrom (.escapedIn mark) word cs
    else splitFrom (.quoted mark) (push c word) cs
  | .escaped, word, c :: cs => splitFrom .plain (push c word) cs
  | .escapedIn mark, word, c :: cs =>
    if c = mark || c = '\\' then splitFrom (.quoted mark) (push c word) cs
    else splitFrom (.quoted mark) (push c (push '\\' word)) cs

def split (command : Text) : Except Fault (List Text) :=
  splitFrom .plain none command

end StyleOrigin.CommandWords
