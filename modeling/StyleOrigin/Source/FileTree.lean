import StyleOrigin.Path.Basic
import StyleOrigin.Text.Quoted

/-!
A tree of files below a directory, and what paths that start there lead to. There are no links. What
lies above the directory is known to be directories and nothing else.

* `FileTree.find`: the file or directory that a path leads to, unless a name on the way is too long.
* `FileTree.file?`: the bytes of the file that a path leads to.
-/
set_option autoImplicit false

namespace StyleOrigin

inductive FileEntry
  | file (bytes : List UInt8)
  | directory
deriving DecidableEq, Repr

/-- The files and empty directories of a tree, each under the names that lead to it. -/
structure FileTree where
  entries : List (List Text × FileEntry)
deriving Repr

namespace FileTree

/-- The directories that are passed on the way of parts, each by the names that lead to it. -/
def passed (parts : List Text) : List (List Text) :=
  (List.range parts.length).map fun count => Path.resolveDots true (parts.take count)

/-- The entries that a named content brings: itself, and the directories on its way. A name that ends
in a slash is a directory, whatever its content. -/
def entriesOf (name : Text) (bytes : List UInt8) : List (List Text × FileEntry) :=
  let parts := Path.parts name
  let entry := if name.getLast? = some '/' then .directory else .file bytes
  (Path.resolveDots true parts, entry) :: (passed parts).map fun names => (names, .directory)

def ofContents (contents : List (Text × List UInt8)) : FileTree :=
  ⟨contents.flatMap fun content => entriesOf content.1 content.2⟩

/-- What names lead to, if they lead to anything: an entry, or a directory on the way to one. -/
def entry? (tree : FileTree) (names : List Text) : Option FileEntry :=
  match tree.entries.lookup names with
  | some entry => some entry
  | none =>
    if names.isEmpty || tree.entries.any fun entry => names.isPrefixOf entry.1 then some .directory
    else none

/-- A place that a path can lead to: above the tree, by a number of directories; in the tree, by the
names that lead there, last first; or at the root of the file system, which is another place. -/
inductive Place
  | above (levels : Nat)
  | inside (names : List Text)
  | root
deriving DecidableEq, Repr

def Place.entry? (tree : FileTree) : Place → Option FileEntry
  | above _ => some .directory
  | inside names => tree.entry? names.reverse
  | root => some .directory

/-- The place that a part of a path leads to from a directory. -/
def Place.step (part : Text) : Place → Option Place
  | above levels =>
    if part.isEmpty || part = ['.'] then some (above levels)
    else if part = ['.', '.'] then some (above (levels + 1))
    else none
  | inside names =>
    if part.isEmpty || part = ['.'] then some (inside names)
    else if part = ['.', '.'] then
      some (match names with
        | [] => above 1
        | _ :: before => inside before)
    else some (inside (part :: names))
  | root => if part.isEmpty || part = ['.'] || part = ['.', '.'] then some root else none

/-- A path is too long, or a name on its way that is looked for in a directory. -/
structure TooLong where
  path : Text
deriving DecidableEq, Repr

def TooLong.message (fault : TooLong) : Text :=
  "[Errno 36] File name too long: " ++ Text.quoted fault.path

/-- The most bytes of a name, and of a path. -/
def longestName : Nat := 255
def longestPath : Nat := 4095

/-- What is at the end of the parts of a path, behind a place on the way. Each part must start from a
directory, and is too long only where it is looked for. -/
def walk (tree : FileTree) (path : Text) (place : Place) :
    List Text → Except TooLong (Option FileEntry)
  | [] => .ok (place.entry? tree)
  | part :: rest =>
    match place.entry? tree with
    | some .directory =>
      if longestName < Text.utf8Length part then .error ⟨path⟩
      else
        match place.step part with
        | some next => walk tree path next rest
        | none => .ok none
    | _ => .ok none

/-- What a path leads to. The empty path and one with the character U+0000 lead nowhere. -/
def find (tree : FileTree) (path : Text) : Except TooLong (Option FileEntry) :=
  if path.isEmpty || path.contains '\x00' then .ok none
  else if longestPath < Text.utf8Length path then .error ⟨path⟩
  else
    walk tree path (if Path.isAbsolute path then .root else .inside []) (Text.splitOn '/' path)

def file? (tree : FileTree) (path : Text) : Except TooLong (Option (List UInt8)) :=
  (tree.find path).map fun
    | some (.file bytes) => some bytes
    | _ => none

def isDirectory (tree : FileTree) (path : Text) : Bool :=
  match tree.find path with
  | .ok (some .directory) => true
  | _ => false

end FileTree
end StyleOrigin
