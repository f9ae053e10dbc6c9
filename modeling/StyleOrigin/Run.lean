import StyleOrigin.Report
import StyleOrigin.Resolver
import StyleOrigin.Search.Grep
import StyleOrigin.Source.Loading

/-!
A whole run: from the settings to the report.

* `Machine.resolverOf`: the resolver that settings and a provider describe.
* `Machine.run`: a run, with the record of what it did.
* `Machine.runWithGrep`: a run that searches with `git grep`.
-/
set_option autoImplicit false

namespace StyleOrigin

open Css

inductive RunFault
  | load (fault : LoadFault)
  | parse (fault : OverlongInteger)
  | setup (fault : Path.NullByte)
  | interrupted (fault : Interruption)
  | incomplete (received : Nat) (expected : Nat)
deriving DecidableEq, Repr

def RunFault.message : RunFault → Text
  | load fault => fault.message
  | parse fault => fault.message
  | setup fault => fault.message
  | interrupted fault => fault.message
  | incomplete received expected =>
    "Resolved " ++ Text.ofNat received ++ " of " ++ Text.ofNat expected
      ++ " units; refusing to build a partial report"

/-- Whether a fault is one that the program reports; the others end it on the spot. -/
def RunFault.isReported : RunFault → Bool
  | load fault => fault.isReported
  | incomplete _ _ => true
  | _ => false

/-- A run: what it came to, and what it did on the way. -/
abbrev Course := Recorded RunEvent (Except RunFault Report)

def Machine.resolverOf (machine : Machine) (settings : Settings) (provider : Provider) :
    Except Path.NullByte Resolver :=
  Resolver.make machine.workingDirectory settings.ignoredPaths settings.extension settings.rootGlob
    settings.concurrency provider.directory

/-- The report on units, from the resolutions that arrived. All of them must have arrived. -/
def collect (unitCount : Nat) (arrived : List Resolution) : Except RunFault Report :=
  let ledger := Ledger.empty.addAll arrived
  if ledger.count = unitCount then (ledger.reportFor unitCount).mapError .parse
  else .error (.incomplete ledger.count unitCount)

def unitsEntry (settings : Settings) (units : List StyleUnit) : LogEntry :=
  ⟨.info, .run, "Flattened " ++ Text.ofNat units.length ++ " rule selectors from "
    ++ settings.inputPath⟩

/-- The course of a run from its units on. Each unit is searched for, whatever comes of the others. The
resolutions arrive as `deliver` hands them on, which may be in any order. -/
def Machine.resolveUnits (machine : Machine) (settings : Settings) (provider : Provider)
    (deliver : List Resolution → List Resolution) (units : List StyleUnit) : Course := do
  match machine.resolverOf settings provider with
  | .error fault => return .error (.setup fault)
  | .ok resolver =>
    match ← resolver.resolveAll provider units with
    | .error fault => return .error (.interrupted fault)
    | .ok resolutions => return collect units.length (deliver resolutions)

def Machine.input (machine : Machine) (settings : Settings) : Option Text → Loading
  | some source => return .ok source
  | none => machine.load settings

@[simp] theorem Machine.searches_input (machine : Machine) (settings : Settings) (source : Option Text) :
    (machine.input settings source).searches = [] := by
  cases source <;> simp [input]

def Machine.run (machine : Machine) (settings : Settings) (provider : Provider) (source : Option Text)
    (deliver : List Resolution → List Resolution) : Course := do
  match ← machine.input settings source with
  | .error fault => return .error (.load fault)
  | .ok text =>
    match parse text with
    | .error fault => return .error (.parse fault)
    | .ok nodes =>
      let units := unitsOf nodes
      Recorded.tell (unitsEntry settings units)
      machine.resolveUnits settings provider deliver units

def Machine.grepOf (machine : Machine) (settings : Settings) : Grep :=
  ⟨"git", settings.searchLimit, none, machine.workingDirectory⟩

/-- A whole run that searches with `git grep`. -/
def Machine.runWithGrep (machine : Machine) (settings : Settings) (source : Option Text)
    (deliver : List Resolution → List Resolution) : Course :=
  machine.run settings ((machine.grepOf settings).provider machine.processes) source deliver

end StyleOrigin
