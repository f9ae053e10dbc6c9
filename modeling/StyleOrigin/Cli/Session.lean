import StyleOrigin.Cli.Command
import StyleOrigin.Cli.Console
import StyleOrigin.Cli.Help
import StyleOrigin.Run

/-!
A whole session of the command: from the arguments to what is printed and the exit status.

* `Cli.Session`: what a session comes to.
* `Cli.session`: the session of a command line.
-/
set_option autoImplicit false

namespace StyleOrigin.Cli

/-- What ends a session on the spot, without a word on the console. -/
inductive Breakdown
  | path (fault : Path.NullByte)
  | run (fault : RunFault)
deriving DecidableEq, Repr

def Breakdown.message : Breakdown → Text
  | path fault => fault.message
  | run fault => fault.message

/-- What a session comes to: its exit status, what it prints, the processes it launches, and what broke
it down, if anything did. -/
structure Session where
  status : Nat
  prints : List Print
  launches : List Launch
  breakdown : Option Breakdown
deriving Repr

/-- The exit status of a session that ends well, that fails, and whose command line is at fault. -/
def success : Nat := 0
def failure : Nat := 1
def misuse : Nat := 2

def page (lines : List Text) : Session :=
  ⟨success, lines.map (.plain .output), [], none⟩

def refusal (fault : UsageFault) : Session :=
  let reminder := if fault.showsUsage then usageReminder else []
  ⟨misuse, (reminder ++ ["Error: " ++ fault.message]).map (.plain .errors), [], none⟩

/-- What is printed about the course of a run: nothing unless the settings ask for it. -/
def coursePrints (settings : Settings) (course : Course) : List Print :=
  if settings.verbose then course.log.map logPrint else []

def conclude (settings : Settings) (course : Course) : Session :=
  let prints := header settings ++ coursePrints settings course
  match course.outcome with
  | .ok report => ⟨success, prints ++ reportPrints settings report, course.launches, none⟩
  | .error fault =>
    if fault.isReported then ⟨failure, prints ++ [errorPrint fault.message], course.launches, none⟩
    else ⟨failure, prints, course.launches, some (.run fault)⟩

def session (machine : Machine) (arguments : List Text) : Session :=
  match read machine.files arguments with
  | .error (.usage fault) => refusal fault
  | .error (.path fault) => ⟨failure, [], [], some (.path fault)⟩
  | .ok .help => page helpPage
  | .ok .version => page [versionLine]
  | .ok (.run settings) => conclude settings (machine.runWithGrep settings none id)

end StyleOrigin.Cli
