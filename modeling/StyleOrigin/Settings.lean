import StyleOrigin.Concurrency
import StyleOrigin.Number.Seconds
import StyleOrigin.Path.Basic

/-!
The settings of a run, each with its usual value.

* `Settings.ignoredPaths`: the paths that are never origins; the input file is among them.
-/
set_option autoImplicit false

namespace StyleOrigin

structure Settings where
  inputPath : Text
  ignore : List Text := []
  rootGlob : Option Text := none
  extension : Text := "less"
  concurrency : Concurrency := .usual
  searchLimit : Seconds := .ofNat 30
  preprocessor : Text := "lessc"
  preprocessLimit : Seconds := .ofNat 120
  precompile : Bool := true
  printQueries : Bool := false
  showUnmatched : Bool := false
  verbose : Bool := false
deriving Repr

namespace Settings

/-- The paths that are never origins, in normal form: the input file and the ignored ones. -/
def ignoredPaths (settings : Settings) : List Text :=
  ((settings.inputPath :: settings.ignore).map Path.normalize).eraseDups

end Settings
end StyleOrigin
