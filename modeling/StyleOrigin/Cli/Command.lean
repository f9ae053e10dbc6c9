import StyleOrigin.Cli.Option
import StyleOrigin.Number.Numeral
import StyleOrigin.Settings
import StyleOrigin.Source.FileTree

/-!
What a command line asks for: help, the version, or a run with certain settings.

* `Cli.UsageFault`: what is wrong with a command line.
* `Cli.read`: what a command line asks for. Values are looked at in the order in which their options
  first stand on the line, then the file; help and version come before all values.
-/
set_option autoImplicit false

namespace StyleOrigin.Cli

/-! ## Faults -/

inductive UsageFault
  | option (fault : OptionFault)
  | notInteger (name : Name) (value : Text)
  | notDecimal (name : Name) (value : Text)
  | integerTooLow (name : Name) (value : Int)
  | decimalTooLow (name : Name) (value : Double)
  | noFile
  | directory (path : Text)
  | extraArguments (arguments : List Text)
deriving DecidableEq, Repr

/-- The start of the wording of a fault in a value. -/
def invalidValue (name : Text) : Text :=
  "Invalid value for " ++ Text.quoted name ++ ": "

/-- The name of the one argument that a command line must have. -/
def fileArgument : Text := "FILE"

def UsageFault.message : UsageFault → Text
  | option fault => fault.message
  | notInteger name value =>
    invalidValue name.spelling ++ Text.quoted value ++ " is not a valid integer range."
  | notDecimal name value =>
    invalidValue name.spelling ++ Text.quoted value ++ " is not a valid float range."
  | integerTooLow name value =>
    invalidValue name.spelling ++ Text.ofInt value ++ " is not in the range x>=1."
  | decimalTooLow name value =>
    invalidValue name.spelling ++ value.toText ++ " is not in the range x>0."
  | noFile => "Missing argument " ++ Text.quoted fileArgument ++ "."
  | directory path =>
    invalidValue fileArgument ++ "File " ++ Text.quoted path ++ " is a directory."
  | extraArguments arguments =>
    "Got unexpected extra " ++ (if arguments.length = 1 then "argument".toList else "arguments".toList)
      ++ " (" ++ Text.joinWith [' '] arguments ++ ")"

/-- Whether a fault is shown with a reminder of the usage. Only a value that is missing or unwanted
goes without. -/
def UsageFault.showsUsage : UsageFault → Bool
  | option (.valueMissing _) => false
  | option (.valueUnwanted _) => false
  | _ => true

/-! ## Values -/

namespace Line

def has (line : Line) (name : Name) : Bool :=
  line.given.any (·.1 == name)

def values (line : Line) (name : Name) : List Text :=
  line.given.filterMap fun found => if found.1 = name then some found.2 else none

/-- The value of an option: the last one given. -/
def value? (line : Line) (name : Name) : Option Text :=
  (line.values name).getLast?

end Line

def readConcurrency (name : Name) (text : Text) : Except UsageFault Concurrency :=
  match Numeral.readInt? text with
  | none => .error (.notInteger name text)
  | some limit =>
    if h : 0 < limit then .ok ⟨limit, h⟩ else .error (.integerTooLow name limit)

def readLimit (name : Name) (text : Text) : Except UsageFault Seconds :=
  match Numeral.readDouble? text with
  | none => .error (.notDecimal name text)
  | some limit =>
    if limit.isAtMostZero then .error (.decimalTooLow name limit) else .ok (.decimal limit)

def takeOver (line : Line) (settings : Settings) (name : Name) : Except UsageFault Settings :=
  let text := (line.value? name).getD []
  match name with
  | .printQueries => .ok { settings with printQueries := true }
  | .showUnmatched => .ok { settings with showUnmatched := true }
  | .verbose => .ok { settings with verbose := true }
  | .noCompile => .ok { settings with precompile := false }
  | .ignore => .ok { settings with ignore := line.values .ignore }
  | .rootGlob => .ok { settings with rootGlob := some text }
  | .extension => .ok { settings with extension := text }
  | .preprocessor => .ok { settings with preprocessor := text }
  | .concurrency =>
    (readConcurrency name text).map fun found => { settings with concurrency := found }
  | .searchTimeout => (readLimit name text).map fun found => { settings with searchLimit := found }
  | .preprocessTimeout =>
    (readLimit name text).map fun found => { settings with preprocessLimit := found }
  | .version => .ok settings
  | .help => .ok settings

/-! ## Requests -/

/-- What a command line asks for. -/
inductive Request
  | help
  | version
  | run (settings : Settings)
deriving Repr

/-- The request of an option that goes before all values. -/
def eager? : Name → Option Request
  | .help => some .help
  | .version => some .version
  | _ => none

/-- Why a command line is not followed: it is at fault, or the file it names can have no such name. -/
inductive Refusal
  | usage (fault : UsageFault)
  | path (fault : Path.NullByte)
deriving DecidableEq, Repr

/-- The input file among the arguments; it must not be a directory. -/
def inputFile (files : FileTree) : List Text → Except Refusal (Text × List Text)
  | [] => .error (.usage .noFile)
  | path :: extra =>
    if path.contains '\x00' then .error (.path .embedded)
    else if files.isDirectory path then .error (.usage (.directory path))
    else .ok (path, extra)

def readSettings (files : FileTree) (line : Line) : Except Refusal Settings := do
  let names := (line.given.map (·.1)).eraseDups
  let settings ← (names.foldlM (takeOver line) { inputPath := [] }).mapError Refusal.usage
  let (path, extra) ← inputFile files line.arguments
  if extra.isEmpty then return { settings with inputPath := path }
  else .error (.usage (.extraArguments extra))

def read (files : FileTree) (arguments : List Text) : Except Refusal Request := do
  let line ← (cut arguments).mapError fun fault => Refusal.usage (.option fault)
  match line.given.findSome? fun found => eager? found.1 with
  | some request => return request
  | none => Request.run <$> readSettings files line

end StyleOrigin.Cli
