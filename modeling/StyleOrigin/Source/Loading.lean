import StyleOrigin.RunEvent
import StyleOrigin.Settings
import StyleOrigin.Source.CommandWords
import StyleOrigin.Source.FileTree
import StyleOrigin.Text.Blank

/-!
Getting the text of the input stylesheet: as it stands in its file, or as a preprocessor expands it.

* `FileTree.readText`: the text of a file, with its line ends unified.
* `Machine.compile`: the output of a process, strictly read.
* `Machine.expand`: the output of the preprocessor on a file.
* `Machine.load`: the one or the other, as the settings say.
-/
set_option autoImplicit false

namespace StyleOrigin

/-- The files and processes that a run meets, and the directory it works in. -/
structure Machine where
  workingDirectory : Text
  files : FileTree
  processes : Processes
  mishaps : Mishaps

/-- Why the stylesheet could not be had. -/
inductive LoadFault
  | missing (path : Text)
  | tooLong (fault : FileTree.TooLong)
  | unreadable (path : Text) (fault : Utf8.Fault)
  | badCommand (fault : CommandWords.Fault)
  | nullInCommand
  | mishap (fault : Mishap)
  | timedOut (command : List Text) (limit : Seconds)
  | notStarted (command : List Text) (reason : Text)
  | exited (command : List Text) (status : Int) (errors : Text)
deriving DecidableEq, Repr

/-- The wording of a fault. What the preprocessor printed as errors follows on lines of its own. -/
def LoadFault.message : LoadFault → Text
  | missing path => "File doesn't exist: " ++ path
  | tooLong fault => fault.message
  | unreadable path fault => "Can't read " ++ path ++ ": " ++ fault.message
  | badCommand fault => fault.message
  | nullInCommand => "embedded null byte"
  | mishap fault => fault.message
  | timedOut _ limit => "Compiling timed out after " ++ limit.toText ++ ['s']
  | notStarted command reason =>
    "Compiling failed: can't run " ++ command.headD [] ++ ": " ++ reason
  | exited _ status errors =>
    "Compiling failed with exit status " ++ Text.ofInt status
      ++ (if errors.isEmpty then [] else '\n' :: Text.strip errors)

/-- Whether a fault is one that the program reports. A path that is too long, a command line that cannot be
split or launched, and a mishap on the way to an outcome are not. -/
def LoadFault.isReported : LoadFault → Bool
  | tooLong _ => false
  | badCommand _ => false
  | nullInCommand => false
  | mishap _ => false
  | _ => true

/-- Getting the stylesheet: its text or a fault, and what was done to have it. -/
abbrev Loading := Recorded RunEvent (Except LoadFault Text)

def FileTree.readText (files : FileTree) (path : Text) : Except LoadFault Text :=
  let path := Path.compact path
  match files.file? path with
  | .error fault => .error (.tooLong fault)
  | .ok none => .error (.missing path)
  | .ok (some bytes) =>
    match Utf8.decode bytes with
    | .error fault => .error (.unreadable path fault)
    | .ok text => .ok (Text.unifyLineEnds text)

def readExpansion (command : List Text) (limit : Seconds) : Outcome → Except LoadFault Text
  | .timedOut => .error (.timedOut command limit)
  | .notStarted reason => .error (.notStarted command reason)
  | .exited status output errors =>
    if status = 0 then .ok output else .error (.exited command status errors)

def launchEntry (command : List Text) : LogEntry :=
  ⟨.debug, .preprocessing, "Compiling with: " ++ Text.joinWith [' '] command⟩

/-- The output of a process. What it prints must be UTF-8, and no word of a command line can hold the
character U+0000. -/
def Machine.compile (machine : Machine) (command : List Text) (limit : Seconds) : Loading := do
  let launch : Launch := ⟨command, limit, none⟩
  Recorded.tell (launchEntry command)
  if ∃ word ∈ command, '\x00' ∈ word then return .error .nullInCommand
  else
    let outcome ← machine.processes.launch launch
    return match machine.mishaps launch with
      | some fault => .error (.mishap fault)
      | none => readExpansion command limit outcome

/-- The output of the preprocessor on a file. The file must be there before the command is looked at. -/
def Machine.expand (machine : Machine) (path preprocessor : Text) (limit : Seconds) : Loading :=
  let path := Path.compact path
  match machine.files.file? path with
  | .error fault => return .error (.tooLong fault)
  | .ok none => return .error (.missing path)
  | .ok (some _) =>
    match CommandWords.split preprocessor with
    | .error fault => return .error (.badCommand fault)
    | .ok words => machine.compile (words ++ [path]) limit

def Machine.load (machine : Machine) (settings : Settings) : Loading :=
  if settings.precompile then
    machine.expand settings.inputPath settings.preprocessor settings.preprocessLimit
  else return machine.files.readText settings.inputPath

section Records
variable (machine : Machine)

theorem Machine.searches_compile (command : List Text) (limit : Seconds) :
    (machine.compile command limit).searches = [] := by
  simp only [compile, Recorded.searches_bind, Recorded.searches_tell, List.nil_append]
  split <;> simp

/-- Nothing is searched for to get the stylesheet. -/
@[simp] theorem Machine.searches_load (settings : Settings) : (machine.load settings).searches = [] := by
  simp only [load, expand]
  split
  · split
    · rfl
    · rfl
    · split
      · rfl
      · exact machine.searches_compile _ _
  · rfl

end Records

end StyleOrigin
