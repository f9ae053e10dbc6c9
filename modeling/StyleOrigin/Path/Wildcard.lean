import StyleOrigin.Text.Basic

/-!
Wildcard patterns for paths: `*` stands for any text, `?` for any character, and a set in square
brackets for any character in it, or not in it if it starts with an exclamation mark. A slash is a
character like any other.

* `Wildcard.Piece`: what a pattern is made of.
* `Wildcard.pieces`: the pieces of a pattern.
* `Wildcard.fits`: whether a text fits a pattern as a whole.
-/
set_option autoImplicit false

namespace StyleOrigin.Wildcard

/-- What a pattern is made of. A set holds ranges of characters, both ends included. -/
inductive Piece
  | anything
  | anyChar
  | char (c : Char)
  | set (negated : Bool) (ranges : List (Char × Char))
deriving DecidableEq, Repr

/-! ## Sets -/

/-- The inside of a set that starts behind its opening bracket: up to the next closing bracket, which
stands for itself if it is the first character, or the first behind an exclamation mark. -/
def setInside? (text : Text) : Option Text :=
  let mark := if text.head? = some '!' then 1 else 0
  let guarded := if (text.drop mark).head? = some ']' then mark + 1 else mark
  let inside := text.take guarded ++ (text.drop guarded).takeWhile (· != ']')
  if inside.length < text.length then some inside else none

/-- The pieces of a set between the hyphens that may make ranges. The first `guard` characters are not
such hyphens, nor are the two behind a cut. -/
def cutAtHyphens : Nat → Text → List Text
  | _, [] => [[]]
  | guard, c :: cs =>
    if guard = 0 && c = '-' then [] :: cutAtHyphens 2 cs
    else
      match cutAtHyphens (guard - 1) cs with
      | [] => [[c]]
      | chunk :: chunks => (c :: chunk) :: chunks

/-- The chunks of a set; a hyphen at its very end belongs to the last. -/
def chunks (inside : Text) : List Text :=
  let cut := cutAtHyphens (if inside.head? = some '!' then 2 else 1) inside
  match cut.reverse with
  | [] :: last :: before => ((last ++ ['-']) :: before).reverse
  | _ => cut

/-- Joins a chunk with the ones behind it where the range between them would run backwards: its two
ends go. -/
def dropBackward (chunk : Text) : List Text → List Text
  | [] => [chunk]
  | next :: rest =>
    match chunk.getLast?, next.head? with
    | some first, some last =>
      if last < first then (chunk.dropLast ++ next.drop 1) :: rest else chunk :: next :: rest
    | _, _ => chunk :: next :: rest

/-- A character of a set, or a hyphen that makes a range. -/
inductive Mark
  | char (c : Char)
  | hyphen
deriving DecidableEq, Repr

/-- The marks of chunks, with a hyphen between neighbours. -/
def marks : List Text → List Mark
  | [] => []
  | [chunk] => chunk.map .char
  | chunk :: rest => chunk.map .char ++ .hyphen :: marks rest

/-- The ranges that marks stand for. A hyphen without a character in front of it is itself one. -/
def ranges : List Mark → List (Char × Char)
  | [] => []
  | .char first :: .hyphen :: .char last :: rest => (first, last) :: ranges rest
  | .char c :: rest => (c, c) :: ranges rest
  | .hyphen :: rest => ('-', '-') :: ranges rest

/-- The piece of a set. Ranges that run backwards are dropped before the exclamation mark is looked
for. -/
def ofInside (inside : Text) : Piece :=
  match marks ((chunks inside).foldr dropBackward []) with
  | .char '!' :: rest => .set true (ranges rest)
  | all => .set false (ranges all)

/-! ## Patterns -/

/-- The pieces of a pattern, when its first `skip` characters are passed over. -/
def piecesFrom : Nat → Text → List Piece
  | _, [] => []
  | skip + 1, _ :: cs => piecesFrom skip cs
  | 0, c :: cs =>
    if c = '*' then .anything :: piecesFrom 0 cs
    else if c = '?' then .anyChar :: piecesFrom 0 cs
    else if c = '[' then
      match setInside? cs with
      | some inside => ofInside inside :: piecesFrom (inside.length + 1) cs
      | none => .char c :: piecesFrom 0 cs
    else .char c :: piecesFrom 0 cs

def pieces (pattern : Text) : List Piece :=
  piecesFrom 0 pattern

/-- Whether a character fits a piece that stands for one character. -/
def Piece.admits (c : Char) : Piece → Bool
  | anything => false
  | anyChar => true
  | char d => c == d
  | set negated ranges => negated != ranges.any fun range => range.1 ≤ c && c ≤ range.2

/-- From which ends of a text fit some pieces, which ends fit if any text may stand in front. -/
def fitsBehindAnything : List Bool → List Bool
  | [] => []
  | fit :: rest =>
    let later := fitsBehindAnything rest
    (fit || later.headD false) :: later

/-- From which ends of a text fit some pieces, which ends fit if a piece for one character stands in
front. -/
def fitsBehindOne (piece : Piece) : Text → List Bool → List Bool
  | c :: cs, _ :: rest => (piece.admits c && rest.headD false) :: fitsBehindOne piece cs rest
  | _, _ => [false]

/-- Which ends of a text fit pieces, from the text itself to the empty one. Each piece is looked at
once for each end, so the time is the product of the two lengths. -/
def fittingEnds (text : Text) : List Piece → List Bool
  | [] => text.map (fun _ => false) ++ [true]
  | .anything :: rest => fitsBehindAnything (fittingEnds text rest)
  | piece :: rest => fitsBehindOne piece text (fittingEnds text rest)

def fits (pattern text : Text) : Bool :=
  (fittingEnds text (pieces pattern)).headD false

end StyleOrigin.Wildcard
