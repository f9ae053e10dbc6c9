import StyleOrigin.Resolution

/-!
The ledger: resolutions as they arrive, attributed units by origin and query, the others apart.

* `Ledger.add`, `Ledger.addAll`: a ledger with further resolutions.
* `Group`: the attributed units of one origin and one query; there is at least one.
-/
set_option autoImplicit false

namespace StyleOrigin

/-- The units attributed to one file under one query, in the order of arrival. -/
structure Group where
  path : Text
  query : Text
  first : StyleUnit
  others : List StyleUnit
deriving Repr

namespace Group

def units (group : Group) : List StyleUnit :=
  group.first :: group.others

def firstIndex (group : Group) : Nat :=
  group.others.foldl (fun least unit => min least unit.index) group.first.index

def isOf (path query : Text) (group : Group) : Bool :=
  group.path == path && group.query == query

end Group

/-- Resolutions as they arrived: the groups in the order of their first unit's arrival, the
resolutions without an origin, and the number of all. -/
structure Ledger where
  groups : List Group
  unresolved : List Resolution
  count : Nat
deriving Repr

namespace Ledger

def empty : Ledger :=
  ⟨[], [], 0⟩

/-- Groups with one more unit: at the end of the group of its path and query, or in a new group. -/
def addUnit (path : Text) (unit : StyleUnit) : List Group → List Group
  | [] => [⟨path, unit.query, unit, []⟩]
  | group :: rest =>
    if group.isOf path unit.query then { group with others := group.others ++ [unit] } :: rest
    else group :: addUnit path unit rest

def add (ledger : Ledger) (resolution : Resolution) : Ledger :=
  match resolution.origin with
  | some origin =>
    ⟨addUnit origin resolution.unit ledger.groups, ledger.unresolved, ledger.count + 1⟩
  | none => ⟨ledger.groups, ledger.unresolved ++ [resolution], ledger.count + 1⟩

def addAll (ledger : Ledger) (resolutions : List Resolution) : Ledger :=
  resolutions.foldl add ledger

end Ledger
end StyleOrigin
