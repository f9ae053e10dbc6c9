import StyleOrigin.Cli.Session
import StyleOrigin.Search.Files

/-!
The command. It reads the files below the working directory, holds a session on them and prints what
the session prints. Searches go through the files directly; no process is started, so the input has to
be plain CSS, which `--no-compile` says.
-/
set_option autoImplicit false

namespace StyleOrigin.Cli

/-- The files below the working directory, by their paths from there. Version control data is left out,
and so is what cannot be read. -/
def readFiles : IO (List (Text × List UInt8)) := do
  let root ← IO.currentDir
  let paths ← root.walkDir fun path => return path.fileName != some ".git"
  let skip := root.toString.length + 1
  let mut files := []
  for path in paths do
    try
      unless ← path.isDir do
        let bytes ← IO.FS.readBinFile path
        files := (path.toString.toList.drop skip, bytes.toList) :: files
    catch _ => pure ()
  return files.reverse

/-- The files that are text, which are the ones to be searched. -/
def readable (files : List (Text × List UInt8)) : List (Text × Text) :=
  files.filterMap fun file =>
    match Utf8.decode file.2 with
    | .ok text => some (file.1, text)
    | .error _ => none

def runSession (arguments : List String) : IO UInt32 := do
  let files ← readFiles
  let machine : Machine :=
    ⟨(← IO.currentDir).toString.toList, .ofContents files, FileSearch.processes (readable files),
      fun _ => none⟩
  let session := session machine (arguments.map String.toList)
  let output ← IO.getStdout
  let errors ← IO.getStderr
  output.putStr (String.ofList (shown (← output.isTty) .output session.prints))
  errors.putStr (String.ofList (shown (← errors.isTty) .errors session.prints))
  if let some breakdown := session.breakdown then
    errors.putStr (String.ofList (breakdown.message ++ ['\n']))
  return session.status.toUInt32

end StyleOrigin.Cli

def main (arguments : List String) : IO UInt32 :=
  StyleOrigin.Cli.runSession arguments
