import StyleOrigin.Concurrency
import StyleOrigin.Path.Basic
import StyleOrigin.Resolution
import StyleOrigin.RunEvent

/-!
The resolver: it searches for the token of a unit and decides from the matches where the unit comes
from.

* `Resolver.make`: a resolver from its set-up.
* `Resolver.candidates`: the distinct paths among matches that may be origins, in order.
* `Resolver.settle`, `Resolver.resolve`: the resolution of one unit. A failed search is a resolution too.
* `Resolver.resolveAll`: the resolutions of all units, each of which is searched for.
-/
set_option autoImplicit false

namespace StyleOrigin

/-- What the resolver goes by: the absolute forms of the ignored paths, the extension of origins, the
pattern that limits searches, the directory that matches are relative to, the working directory, and
how many searches may run at once. -/
structure Resolver where
  workingDirectory : Text
  ignored : List Text
  extension : Text
  glob : Option Text
  matchRoot : Option Text
  maxInFlight : Concurrency
deriving Repr

/-- What nobody handles when it comes up in the search for a unit. -/
inductive Interruption
  | provider (message : Text)
  | path (fault : Path.NullByte)
  | unit (fault : AlreadyResolved)
deriving DecidableEq, Repr

def Interruption.message : Interruption → Text
  | provider message => message
  | path fault => fault.message
  | unit fault => fault.message

/-- The search for one unit: what it came to, and what was done for it. -/
abbrev Attempt := Recorded RunEvent (Except Interruption Resolution)

namespace Resolver

/-- A resolver from its set-up. Ignored paths are relative to the working directory, and the dots in
front of the extension do not count. -/
def make (workingDirectory : Text) (ignore : List Text) (extension : Text) (glob : Option Text)
    (maxInFlight : Concurrency) (matchRoot : Option Text) : Except Path.NullByte Resolver :=
  (ignore.mapM (Path.absolute workingDirectory none)).map fun ignored =>
    ⟨workingDirectory, ignored, extension.dropWhile (· == '.'), glob, matchRoot, maxInFlight⟩

/-! ## Candidates -/

/-- Whether a path may be an origin: it is there, it is not ignored, and it has the extension. -/
def qualifies (resolver : Resolver) (path : Text) : Except Path.NullByte Bool :=
  if path.isEmpty then .ok false
  else
    (Path.absolute resolver.workingDirectory resolver.matchRoot path).map fun absolute =>
      !resolver.ignored.contains absolute && Path.extension path == resolver.extension

/-- The paths that may be origins, in order and with repetitions. -/
def qualifying (resolver : Resolver) : List Text → Except Path.NullByte (List Text)
  | [] => .ok []
  | path :: rest => do
    let kept ← resolver.qualifies path
    let others ← resolver.qualifying rest
    return if kept then path :: others else others

/-- The distinct paths among matches that may be origins, by their first match. -/
def candidates (resolver : Resolver) (found : List Text) : Except Path.NullByte (List Text) :=
  List.eraseDups <$> resolver.qualifying (found.map matchPath)

/-! ## Resolution -/

def failureEntry (token : Text) (fault : SearchFault) : LogEntry :=
  let command := match fault with
    | .search _ command => Text.joinWith [' '] command
    | _ => []
  let shown := if command.isEmpty then "<provider>".toList else command
  ⟨.debug, .resolver, "Can't find " ++ token ++ " using: " ++ shown ++ ": " ++ fault.message⟩

def ambiguityEntry (token : Text) (candidates : List Text) : LogEntry :=
  ⟨.debug, .resolver, token ++ " matches " ++ Text.ofNat candidates.length ++ " files: "
    ++ Text.joinWith ", " candidates⟩

def conclude (unit : StyleUnit) (candidates : List Text) (status : Status) (error : Text) :
    Except Interruption Resolution :=
  match unit.withOrigins candidates with
  | .error fault => .error (.unit fault)
  | .ok found => .ok ⟨found, status, unit.token, error⟩

/-- What is asked for to find the origin of a unit. -/
def searchFor (resolver : Resolver) (unit : StyleUnit) : Search :=
  ⟨unit.token, resolver.glob⟩

/-- What is made of the answer to the search for a unit. -/
def settle (resolver : Resolver) (unit : StyleUnit) : Except SearchFault (List Text) → Attempt
  | .error (.foreign message) => return .error (.provider message)
  | .error fault => do
    Recorded.tell (failureEntry unit.token fault)
    return conclude unit [] .failed fault.message
  | .ok found =>
    match resolver.candidates found with
    | .error fault => return .error (.path fault)
    | .ok candidates => do
      let status := Status.ofCandidates candidates
      if status = .ambiguous then Recorded.tell (ambiguityEntry unit.token candidates)
      return conclude unit candidates status []

def resolve (resolver : Resolver) (provider : Provider) (unit : StyleUnit) : Attempt := do
  let answer ← provider.ask (resolver.searchFor unit)
  resolver.settle unit answer

/-- The resolutions of units, each of which is searched for, whatever comes of the others. -/
def resolveAll (resolver : Resolver) (provider : Provider) (units : List StyleUnit) :
    Recorded RunEvent (Except Interruption (List Resolution)) := do
  let outcomes ← units.mapM (resolver.resolve provider)
  return outcomes.mapM id

section Records
variable (resolver : Resolver) (provider : Provider)

/-- Nothing is done about an answer but telling of it. -/
theorem records_settle (unit : StyleUnit) (answer : Except SearchFault (List Text)) :
    (resolver.settle unit answer).searches = [] ∧ (resolver.settle unit answer).launches = [] := by
  unfold settle
  split
  · exact ⟨rfl, rfl⟩
  · exact ⟨rfl, rfl⟩
  · split
    · exact ⟨rfl, rfl⟩
    · rename_i candidates _
      by_cases hmany : Status.ofCandidates candidates = .ambiguous <;> simp [hmany]

theorem outcome_settle (unit : StyleUnit) (answer : Except SearchFault (List Text)) :
    (resolver.settle unit answer).outcome =
      match answer with
      | .error (.foreign message) => .error (.provider message)
      | .error fault => conclude unit [] .failed fault.message
      | .ok found =>
        match resolver.candidates found with
        | .error fault => .error (.path fault)
        | .ok candidates => conclude unit candidates (.ofCandidates candidates) [] := by
  unfold settle
  split
  · rfl
  · rfl
  · split
    · rfl
    · rename_i candidates _
      by_cases hmany : Status.ofCandidates candidates = .ambiguous <;> simp [hmany]

theorem outcome_resolve (unit : StyleUnit) :
    (resolver.resolve provider unit).outcome =
      (resolver.settle unit (provider.answer (resolver.searchFor unit))).outcome := rfl

/-- One search is made for a unit, whatever comes of it. -/
@[simp] theorem searches_resolve (unit : StyleUnit) :
    (resolver.resolve provider unit).searches = [resolver.searchFor unit] := by
  simp [resolve, records_settle]

@[simp] theorem launches_resolve (unit : StyleUnit) :
    (resolver.resolve provider unit).launches = provider.launches (resolver.searchFor unit) := by
  simp [resolve, records_settle]

theorem outcome_resolveAll (units : List StyleUnit) :
    (resolver.resolveAll provider units).outcome =
      units.mapM fun unit => (resolver.resolve provider unit).outcome := by
  simp [resolveAll, List.mapM_map]

@[simp] theorem searches_resolveAll (units : List StyleUnit) :
    (resolver.resolveAll provider units).searches = units.map resolver.searchFor := by
  simp [resolveAll, ← List.map_eq_flatMap]

@[simp] theorem launches_resolveAll (units : List StyleUnit) :
    (resolver.resolveAll provider units).launches =
      units.flatMap fun unit => provider.launches (resolver.searchFor unit) := by
  simp [resolveAll]

end Records

end Resolver
end StyleOrigin
