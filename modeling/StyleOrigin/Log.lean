import StyleOrigin.Text.Basic

/-!
What a run tells about its course, for those who ask.

* `LogEntry`: a message with its level and the part of the program that it comes from.
-/
set_option autoImplicit false

namespace StyleOrigin

inductive LogLevel
  | debug
  | info
deriving DecidableEq, Repr

inductive LogSource
  | resolver
  | preprocessing
  | run
deriving DecidableEq, Repr

structure LogEntry where
  level : LogLevel
  source : LogSource
  message : Text
deriving DecidableEq, Repr

def LogLevel.toText : LogLevel → Text
  | debug => "DEBUG"
  | info => "INFO"

def LogSource.toText : LogSource → Text
  | resolver => "untangle.pipeline.resolver"
  | preprocessing => "untangle.preprocess"
  | run => "untangle.runner"

/-- A message with its level and source in front. -/
def LogEntry.toText (entry : LogEntry) : Text :=
  entry.level.toText ++ ' ' :: entry.source.toText ++ ": " ++ entry.message

end StyleOrigin
