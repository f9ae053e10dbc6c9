import StyleOrigin.Search.Provider
import StyleOrigin.Path.Wildcard
import StyleOrigin.Text.Quoted

/-!
A provider that answers from a table, for dry runs.

* `Table.answer`: the answer to one search.
* `Table.provider`: the table as a provider.
-/
set_option autoImplicit false

namespace StyleOrigin

/-- Answers to searches: matches by token, tokens whose search fails, and faults by token, which go
before both. -/
structure Table where
  results : List (Text × List Text)
  failures : List Text
  faults : List (Text × SearchFault)
  directory : Option Text
deriving Repr

namespace Table

/-- Whether a match is let through by a pattern; no pattern and the empty one let all through. -/
def admits (glob : Option Text) (found : Text) : Bool :=
  match glob with
  | none | some [] => true
  | some pattern => Wildcard.fits pattern (matchPath found)

def answer (table : Table) (search : Search) : Except SearchFault (List Text) :=
  match table.faults.lookup search.token with
  | some fault => .error fault
  | none =>
    if table.failures.contains search.token then
      .error (.search ("Search failed for " ++ Text.quoted search.token) [])
    else .ok (((table.results.lookup search.token).getD []).filter (admits search.glob))

def provider (table : Table) : Provider :=
  .ofAnswers table.answer table.directory

end Table
end StyleOrigin
