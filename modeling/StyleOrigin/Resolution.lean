import StyleOrigin.StyleUnit

/-!
Resolutions: what the search for one unit came to.

* `Status`: resolved, ambiguous, unmatched or failed.
* `Status.ofCandidates`: the status that the candidate origins of a unit give it.
* `Resolution.origin`: the one origin of a resolved unit.
-/
set_option autoImplicit false

namespace StyleOrigin

inductive Status
  | resolved
  | ambiguous
  | unmatched
  | failed
deriving DecidableEq, Repr

namespace Status

def toText : Status → Text
  | resolved => "resolved"
  | ambiguous => "ambiguous"
  | unmatched => "unmatched"
  | failed => "failed"

/-- A word that names no status. -/
structure Unknown where
  word : Text
deriving DecidableEq, Repr

def Unknown.message (fault : Unknown) : Text :=
  Text.quoted fault.word ++ " is not a valid ResolutionStatus"

def ofText (word : Text) : Except Unknown Status :=
  match [resolved, ambiguous, unmatched, failed].find? (·.toText == word) with
  | some status => .ok status
  | none => .error ⟨word⟩

/-- The status of a unit with these candidate origins: one is an origin, none is no match. -/
def ofCandidates : List Text → Status
  | [] => unmatched
  | [_] => resolved
  | _ => ambiguous

end Status

/-- What the search for a unit came to: the unit with its candidate origins, the status, the token
searched for, and the text of the error if it failed. -/
structure Resolution where
  unit : StyleUnit
  status : Status
  token : Text
  error : Text
deriving Repr

namespace Resolution

def origin (resolution : Resolution) : Option Text :=
  match resolution.status, resolution.unit.origins with
  | .resolved, some (origin :: _) => some origin
  | _, _ => none

def candidates (resolution : Resolution) : List Text :=
  resolution.unit.origins.getD []

end Resolution
end StyleOrigin
