import StyleOrigin.Process

/-!
Search providers: what can be asked where a token occurs in a file tree.

* `Search`: what is asked for.
* `SearchFault`: the ways in which a search fails.
* `Provider`: what finds the answers to searches, with a record of the processes that it starts.
* `Provider.answer`, `Provider.launches`: the answer to one search, and the processes started for it.
* `Provider.ofAnswers`: answers that are there without a process.
* `matchPath`: the path at the start of a match.
-/
set_option autoImplicit false

namespace StyleOrigin

/-- What is asked for: a token, and a pattern that paths must fit if there is one. -/
structure Search where
  token : Text
  glob : Option Text
deriving DecidableEq, Repr

/-- The ways in which a search fails: as a search, with the command line if there is one; because of
the system; or for a reason that is none of a search's own, which nobody handles. -/
inductive SearchFault
  | search (message : Text) (command : List Text)
  | system (message : Text)
  | foreign (message : Text)
deriving DecidableEq, Repr

def SearchFault.message : SearchFault → Text
  | search message _ => message
  | system message => message
  | foreign message => message

/-- Something that can be searched. A match starts with a path, and a colon ends the path. Paths are
relative to the provider's directory if it has one. -/
structure Provider where
  find : Search → Recorded Launch (Except SearchFault (List Text))
  directory : Option Text

namespace Provider

def answer (provider : Provider) (search : Search) : Except SearchFault (List Text) :=
  (provider.find search).outcome

def launches (provider : Provider) (search : Search) : List Launch :=
  (provider.find search).events

/-- A provider that has its answers without starting a process. -/
def ofAnswers (answer : Search → Except SearchFault (List Text)) (directory : Option Text) : Provider :=
  ⟨fun search => return answer search, directory⟩

@[simp] theorem answer_ofAnswers (answer : Search → Except SearchFault (List Text))
    (directory : Option Text) : (ofAnswers answer directory).answer = answer := rfl

@[simp] theorem launches_ofAnswers (answer : Search → Except SearchFault (List Text))
    (directory : Option Text) (search : Search) : (ofAnswers answer directory).launches search = [] := rfl

end Provider

/-- The path at the start of a match. -/
def matchPath (found : Text) : Text :=
  found.takeWhile (· != ':')

end StyleOrigin
