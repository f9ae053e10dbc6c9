import StyleOrigin.Text.Basic

/-!
File paths as texts: joining, normal form, file name and extension. No file is looked at, so a path
is brought to its normal form by its letters alone.

* `Path.join`, `Path.normalize`: one path behind another, and a path without detours.
* `Path.absolute`: the one absolute form of a path, by which files are compared.
* `Path.compact`: a path without its empty and dot parts, detours kept.
* `Path.baseName`, `Path.extension`: the text after the last slash, and after the last dot in it.
-/
set_option autoImplicit false

namespace StyleOrigin.Path

/-! ## Parts -/

/-- The parts of a path between slashes, without the empty ones and the single dots. -/
def parts (path : Text) : List Text :=
  (Text.splitOn '/' path).filter fun part => !part.isEmpty && part != ['.']

/-- The slashes that make a path absolute: exactly two are kept, any other number is one. -/
def root : Text → Text
  | '/' :: '/' :: '/' :: _ => ['/']
  | '/' :: '/' :: _ => ['/', '/']
  | '/' :: _ => ['/']
  | _ => []

def isAbsolute (path : Text) : Bool :=
  path.head? == some '/'

/-- The parts kept so far, last first, with one more: two dots take the part before them back, unless
there is none. A relative path keeps two dots that have nothing to take back. -/
def pushPart (rooted : Bool) (kept : List Text) (part : Text) : List Text :=
  if part = ['.', '.'] then
    match kept with
    | [] => if rooted then [] else [part]
    | last :: before => if last = ['.', '.'] then part :: kept else before
  else part :: kept

/-- The parts that are left when each pair of dots has taken back the part before it. -/
def resolveDots (rooted : Bool) (parts : List Text) : List Text :=
  (parts.foldl (pushPart rooted) []).reverse

/-- A path put together from its root and its parts; the empty one is a single dot. -/
def build (root : Text) (parts : List Text) : Text :=
  match root ++ Text.joinWith ['/'] parts with
  | [] => ['.']
  | path => path

/-! ## Forms -/

/-- A path behind another: an absolute one stands alone. -/
def join (base path : Text) : Text :=
  if isAbsolute path then path
  else if base.isEmpty || base.getLast? = some '/' then base ++ path
  else base ++ '/' :: path

/-- A path without empty parts, single dots and detours. -/
def normalize (path : Text) : Text :=
  let root := root path
  build root (resolveDots (!root.isEmpty) (parts path))

/-- A path without empty parts and single dots. Detours stay. -/
def compact (path : Text) : Text :=
  build (root path) (parts path)

/-- A path holds the character U+0000, which no file name can. -/
inductive NullByte
  | embedded
deriving DecidableEq, Repr

def NullByte.message : NullByte → Text
  | .embedded => "embedded null byte"

/-- The absolute form of a path that is given relative to a directory, itself relative to the working
directory; without a directory the path is relative to the working directory. -/
def absolute (workingDirectory : Text) (directory : Option Text) (path : Text) :
    Except NullByte Text :=
  let base := match directory with
    | none | some [] => workingDirectory
    | some found => found
  let whole := join base path
  if whole.contains '\x00' then .error .embedded
  else if isAbsolute whole then .ok (build ['/'] (resolveDots true (parts whole)))
  else .ok (normalize (join workingDirectory whole))

/-! ## Names -/

def baseName (path : Text) : Text :=
  (Text.splitOn '/' path).getLast?.getD []

/-- The text after the last dot of the file name; nothing if there is no dot. -/
def extension (path : Text) : Text :=
  if (baseName path).contains '.' then (Text.splitOn '.' path).getLast?.getD [] else []

end StyleOrigin.Path
