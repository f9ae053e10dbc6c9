import StyleOrigin.Path.Wildcard
import StyleOrigin.Process

/-!
Searching texts directly, as a stand-in for a search process: it answers the command lines of a
fixed-string search from the texts of files, and starts nothing else.

* `FileSearch.outcome`: the end that a search through the files would have.
* `FileSearch.processes`: the files as a machine that can only be searched.
-/
set_option autoImplicit false

namespace StyleOrigin.FileSearch

def occursIn (token : Text) : Text → Bool
  | [] => token.isEmpty
  | c :: cs => token.isPrefixOf (c :: cs) || occursIn token cs

def found (token : Text) (file : Text × Text) : List Text :=
  ((Text.splitOn '\n' file.2).filter (occursIn token)).map fun line => file.1 ++ ':' :: line

/-- The end that a search through the files would have: status one if nothing is found. -/
def outcome (files : List (Text × Text)) (token : Text) (glob : Option Text) : Outcome :=
  let admitted := files.filter fun file => (glob.map (Wildcard.fits · file.1)).getD true
  match admitted.flatMap (found token) with
  | [] => .exited 1 [] []
  | lines => .exited 0 (lines.flatMap (· ++ ['\n'])) []

/-- The files as a machine that can only be searched. -/
def processes (files : List (Text × Text)) : Processes := fun command =>
  match command with
  | program :: grep :: fixed :: pattern :: token :: limits =>
    if program = "git" && grep = "grep" && fixed = "-F" && pattern = "-e" then
      outcome files token (limits.drop 1).head?
    else .notStarted "only searches can be run"
  | _ => .notStarted "only searches can be run"

end StyleOrigin.FileSearch
