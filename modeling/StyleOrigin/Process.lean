import StyleOrigin.Number.Seconds
import StyleOrigin.Recorded
import StyleOrigin.Text.Utf8

/-!
Processes as data: what is launched, and how a launch ends.

* `Launch`: a command line, its time limit and the directory it runs in.
* `Outcome`: a launch that failed, one that took too long, or an exit with its output.
* `Processes`: how the launches on a machine end.
* `Processes.start`: a launch, with a record of it.
* `Mishap`: what can come up in a launch that has no outcome at all.
-/
set_option autoImplicit false

namespace StyleOrigin

/-- A process to be started. Without a directory it runs in the working directory. -/
structure Launch where
  command : List Text
  limit : Seconds
  directory : Option Text
deriving DecidableEq, Repr

inductive Outcome
  | notStarted (reason : Text)
  | timedOut
  | exited (status : Int) (output : Text) (errors : Text)
deriving DecidableEq, Repr

/-- How the launch of each command line ends. Where output or errors are not UTF-8, their texts have the
character U+FFFD. -/
abbrev Processes := List Text → Outcome

/-- Starts a process and waits for its end. -/
def Processes.start (processes : Processes) (launch : Launch) : Recorded Launch Outcome := do
  Recorded.note launch
  return processes launch.command

/-- What can come up in a launch whose output is to be UTF-8: its output or its errors are not, or its time
limit is longer than the machine can wait. -/
inductive Mishap
  | undecodable (fault : Utf8.Fault)
  | unwaitable (reason : Text)
deriving DecidableEq, Repr

def Mishap.message : Mishap → Text
  | undecodable fault => fault.message
  | unwaitable reason => reason

/-- What comes up in each launch, if anything does. -/
abbrev Mishaps := Launch → Option Mishap

end StyleOrigin
