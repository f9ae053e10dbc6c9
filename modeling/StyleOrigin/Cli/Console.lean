import StyleOrigin.Report
import StyleOrigin.Settings
import StyleOrigin.Log

/-!
What the command prints. Everything but fragments and rules stands in comments, so that the output can
go into a stylesheet as it is.

* `Cli.Print`: a text for one of the two streams, in a colour or in none.
* `Cli.header`, `Cli.reportPrints`: what a run prints before its work and on its report.
* `Cli.shown`: the text that a stream shows, with or without colours.
-/
set_option autoImplicit false

namespace StyleOrigin.Cli

/-! ## Prints -/

inductive Stream
  | output
  | errors
deriving DecidableEq, Repr

inductive Colour
  | red
  | green
  | yellow
  | blue
deriving DecidableEq, Repr

/-- A text printed on a stream, with a line end behind it. -/
structure Print where
  stream : Stream
  colour : Option Colour
  text : Text
deriving DecidableEq, Repr

def Print.plain (stream : Stream) (text : Text) : Print :=
  ⟨stream, none, text⟩

def emptyLine : Print :=
  .plain .output []

def comment (text : Text) : Text :=
  "/* " ++ text ++ " */"

def logPrint (entry : LogEntry) : Print :=
  .plain .errors (comment entry.toText)

def errorPrint (message : Text) : Print :=
  ⟨.errors, some .red, "Error: " ++ message⟩

/-! ## Reports -/

def header (settings : Settings) : List Print :=
  [⟨.output, some .green, comment ("Analysing: " ++ settings.inputPath)⟩, emptyLine]

def filePrints (settings : Settings) (file : Text × List Fragment) : List Print :=
  ⟨.output, some .blue, comment ("Origin file: " ++ file.1)⟩
    :: (if settings.printQueries then file.2.map fun fragment => .plain .output fragment.write
        else [])
    ++ [emptyLine]

def entryPrints (settings : Settings) (entry : Resolution) : List Print :=
  let place := settings.inputPath ++ " Line: " ++ Text.ofNat entry.unit.position.line ++ " ("
    ++ entry.status.toText ++ ")"
  [emptyLine, .plain .output (comment place)]
    ++ (if entry.candidates.isEmpty then []
        else [.plain .output (comment ("Candidates: " ++ Text.joinWith ", " entry.candidates))])
    ++ (if settings.verbose && !entry.error.isEmpty then [.plain .output (comment entry.error)]
        else [])
    ++ [.plain .output entry.unit.rule.write]

def unmatchedPrints (settings : Settings) (report : Report) : List Print :=
  if settings.showUnmatched then
    ⟨.output, some .yellow, comment "Showing unmatched styles"⟩
      :: report.unresolved.flatMap (entryPrints settings) ++ [emptyLine]
  else []

def summary (report : Report) : Text :=
  Text.ofInt report.unitCount ++ " selector(s): " ++ Text.ofInt report.attributedCount
    ++ " attributed to " ++ Text.ofNat report.files.length ++ " file(s), "
    ++ Text.ofNat report.unresolved.length ++ " unresolved"

def reportPrints (settings : Settings) (report : Report) : List Print :=
  report.files.flatMap (filePrints settings) ++ unmatchedPrints settings report
    ++ [.plain .output (comment (summary report))]

/-! ## Streams -/

def escape : Char := '\x1B'

def Colour.code : Colour → Text
  | red => escape :: "[31m"
  | green => escape :: "[32m"
  | yellow => escape :: "[33m"
  | blue => escape :: "[34m"

def plainCode : Text :=
  escape :: "[0m"

def isCodeParameter (c : Char) : Bool :=
  '0' ≤ c && c ≤ '?'

/-- The characters between the parameters of a terminal code and its last character. -/
def isCodeIntermediate (c : Char) : Bool :=
  ' ' ≤ c && c ≤ '/'

def isCodeFinal (c : Char) : Bool :=
  '@' ≤ c && c ≤ '~'

/-- The number of characters of the terminal code at the start of a text, if one is there. -/
def codeLength? : Text → Option Nat
  | c :: '[' :: cs =>
    let parameters := (cs.takeWhile isCodeParameter).length
    let intermediates := ((cs.drop parameters).takeWhile isCodeIntermediate).length
    let inside := parameters + intermediates
    if c = escape && ((cs.drop inside).head?.map isCodeFinal).getD false then some (inside + 3)
    else none
  | _ => none

/-- A text without its terminal codes, when its first `skip` characters are passed over. -/
def withoutCodesFrom : Nat → Text → Text
  | _, [] => []
  | skip + 1, _ :: cs => withoutCodesFrom skip cs
  | 0, c :: cs =>
    match codeLength? (c :: cs) with
    | some length => withoutCodesFrom (length - 1) cs
    | none => c :: withoutCodesFrom 0 cs

def withoutCodes (text : Text) : Text :=
  withoutCodesFrom 0 text

def Print.render (colours : Bool) (print : Print) : Text :=
  if colours then
    match print.colour with
    | some colour => colour.code ++ print.text ++ plainCode
    | none => print.text
  else withoutCodes print.text

def shown (colours : Bool) (stream : Stream) (prints : List Print) : Text :=
  (prints.filter (·.stream == stream)).flatMap fun print => print.render colours ++ ['\n']

end StyleOrigin.Cli
