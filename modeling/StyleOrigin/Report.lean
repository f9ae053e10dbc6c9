import StyleOrigin.Ledger
import StyleOrigin.Media.Fragment

/-!
The report: for each origin the fragments of its rules, and the units that have no origin. Everything
is in source order, whatever the order of arrival.

* `Ledger.report`: the report of a ledger.
* `Report.fragmentsFor`: the fragments of one file.
-/
set_option autoImplicit false

namespace StyleOrigin

open Css

/-- What is written in the end: the number of units, the files with their fragments, and the
resolutions without an origin. -/
structure Report where
  unitCount : Int
  files : List (Text × List Fragment)
  unresolved : List Resolution
deriving Repr

namespace Report

def attributedCount (report : Report) : Int :=
  report.unitCount - report.unresolved.length

def fragmentsFor (report : Report) (path : Text) : List Fragment :=
  (report.files.lookup path).getD []

/-- Files with one more fragment: at the end of its file's, or in a new file at the end. -/
def addFragment (path : Text) (fragment : Fragment) :
    List (Text × List Fragment) → List (Text × List Fragment)
  | [] => [(path, [fragment])]
  | file :: rest =>
    if file.1 = path then (file.1, file.2 ++ [fragment]) :: rest
    else file :: addFragment path fragment rest

end Report

def Group.sortedUnits (group : Group) : List StyleUnit :=
  group.units.mergeSort fun a b => a.index ≤ b.index

/-- The fragment of a group, with its rules in source order. -/
def Group.fragment (group : Group) : Except OverlongInteger Fragment :=
  Fragment.make group.query (group.sortedUnits.map (·.rule))

namespace Ledger

def sortedGroups (ledger : Ledger) : List Group :=
  ledger.groups.mergeSort fun a b => a.firstIndex ≤ b.firstIndex

def sortedUnresolved (ledger : Ledger) : List Resolution :=
  ledger.unresolved.mergeSort fun a b => a.unit.index ≤ b.unit.index

/-- The report of a ledger that stands for a number of units. It fails where the query of a group
cannot be read again. -/
def reportFor (ledger : Ledger) (unitCount : Int) : Except OverlongInteger Report := do
  let fragments ← ledger.sortedGroups.mapM fun group => (group.path, ·) <$> group.fragment
  let files := fragments.foldl (fun files found => Report.addFragment found.1 found.2 files) []
  return ⟨unitCount, files, ledger.sortedUnresolved⟩

def report (ledger : Ledger) : Except OverlongInteger Report :=
  ledger.reportFor ledger.count

end Ledger
end StyleOrigin
