import StyleOrigin.Search.Provider
import StyleOrigin.Text.Blank
import StyleOrigin.Text.Lines

/-!
Searching with `git grep`: one process a token, in fixed-string mode, so that the punctuation of
selectors is no pattern.

* `Grep.command`: the command line of a search.
* `Grep.read`: what the end of the process means.
* `Grep.run`: one search.
* `Grep.provider`: the search as a provider.
-/
set_option autoImplicit false

namespace StyleOrigin

/-- The set-up of a search: the program, the time limit, the directory it is to run in, and the
working directory, which stands in for a missing one. -/
structure Grep where
  executable : Text
  limit : Seconds
  directory : Option Text
  workingDirectory : Text
deriving DecidableEq, Repr

namespace Grep

inductive Cause
  | timedOut (limit : Seconds)
  | notStarted (reason : Text)
  | exited (status : Int) (errors : Text)
deriving DecidableEq, Repr

/-- A failed search: its token, its command line, and why it failed. -/
structure Fault where
  token : Text
  command : List Text
  cause : Cause
deriving DecidableEq, Repr

def Cause.message : Cause → Text
  | timedOut limit => "Search timed out after " ++ limit.toText ++ ['s']
  | notStarted reason => "Search could not run: " ++ reason
  | exited status errors =>
    "Search exited with status " ++ Text.ofInt status ++ ": " ++ Text.strip errors

def Fault.toSearchFault (fault : Fault) : SearchFault :=
  .search fault.cause.message fault.command

def root (grep : Grep) : Text :=
  match grep.directory with
  | none | some [] => grep.workingDirectory
  | some directory => directory

def command (grep : Grep) (search : Search) : List Text :=
  let limits : List Text := match search.glob with
    | none | some [] => []
    | some pattern => ["--", pattern]
  [grep.executable, "grep", "-F", "-e", search.token] ++ limits

def launch (grep : Grep) (search : Search) : Launch :=
  ⟨grep.command search, grep.limit, grep.directory⟩

/-- The exit status that tells that nothing was found. -/
def nothingFound : Int := 1

/-- What the end of the process means: the non-empty lines of its output, nothing found, or a cause of
failure. The status for nothing found is a failure when errors were printed. -/
def read (limit : Seconds) : Outcome → Except Cause (List Text)
  | .timedOut => .error (.timedOut limit)
  | .notStarted reason => .error (.notStarted reason)
  | .exited status output errors =>
    if status = nothingFound && (Text.strip errors).isEmpty then .ok []
    else if status ≠ 0 then .error (.exited status errors)
    else .ok ((Text.lines output).filter (!·.isEmpty))

/-- One search: a process, whose end is read. -/
def run (grep : Grep) (processes : Processes) (search : Search) :
    Recorded Launch (Except Fault (List Text)) := do
  let outcome ← processes.start (grep.launch search)
  return (read grep.limit outcome).mapError (⟨search.token, grep.command search, ·⟩)

def answer (grep : Grep) (processes : Processes) (search : Search) : Except Fault (List Text) :=
  (grep.run processes search).outcome

def provider (grep : Grep) (processes : Processes) : Provider :=
  ⟨fun search => Except.mapError Fault.toSearchFault <$> grep.run processes search, some grep.root⟩

section Provider
variable (grep : Grep) (processes : Processes) (search : Search)

theorem answer_eq :
    grep.answer processes search = (read grep.limit (processes (grep.command search))).mapError
      (⟨search.token, grep.command search, ·⟩) := rfl

@[simp] theorem answer_provider :
    (grep.provider processes).answer search =
      (grep.answer processes search).mapError Fault.toSearchFault := rfl

@[simp] theorem launches_provider :
    (grep.provider processes).launches search = [grep.launch search] := rfl

end Provider

end Grep
end StyleOrigin
