import StyleOrigin.Text.Likeness
import StyleOrigin.Text.Quoted

/-!
The options of the command line, and cutting a command line into options and other arguments.

* `Cli.Name`: the options, each by its name.
* `Cli.Line`: the options given, in order and with their values, and the other arguments.
* `Cli.cut`: a command line cut up, or the first thing wrong with its options.
-/
set_option autoImplicit false

namespace StyleOrigin.Cli

/-! ## Names -/

inductive Name
  | version
  | printQueries
  | showUnmatched
  | ignore
  | rootGlob
  | verbose
  | extension
  | concurrency
  | preprocessor
  | noCompile
  | searchTimeout
  | preprocessTimeout
  | help
deriving DecidableEq, Repr

namespace Name

def all : List Name :=
  [version, printQueries, showUnmatched, ignore, rootGlob, verbose, extension, concurrency,
    preprocessor, noCompile, searchTimeout, preprocessTimeout, help]

def spelling : Name → Text
  | version => "--version"
  | printQueries => "--print-queries"
  | showUnmatched => "--show-unmatched"
  | ignore => "--ignore"
  | rootGlob => "--root-glob"
  | verbose => "--verbose"
  | extension => "--extension"
  | concurrency => "--concurrency"
  | preprocessor => "--preprocessor"
  | noCompile => "--no-compile"
  | searchTimeout => "--search-timeout"
  | preprocessTimeout => "--preprocess-timeout"
  | help => "--help"

def takesValue : Name → Bool
  | ignore | rootGlob | extension | concurrency | preprocessor | searchTimeout
  | preprocessTimeout => true
  | _ => false

def ofSpelling? (text : Text) : Option Name :=
  all.find? (·.spelling == text)

def ofLetter? (letter : Char) : Option Name :=
  if letter = 'h' then some help else none

end Name

/-! ## Faults -/

inductive OptionFault
  | unknown (spelling : Text)
  | unknownLetter (letter : Char)
  | valueMissing (name : Name)
  | valueUnwanted (name : Name)
deriving DecidableEq, Repr

/-- The options whose spellings are close to a text, at most three, in the order of their spellings. -/
def suggestions (spelling : Text) : List Text :=
  (Text.closest 3 (Name.all.map Name.spelling) spelling).mergeSort Text.isAtMost

def suggestionText : List Text → Text
  | [] => []
  | [name] => " Did you mean " ++ Text.quoted name ++ "?"
  | names => " (Did you mean one of: " ++ Text.joinWith ", " (names.map Text.quoted) ++ "?)"

def OptionFault.message : OptionFault → Text
  | unknown spelling =>
    "No such option " ++ Text.quoted spelling ++ "." ++ suggestionText (suggestions spelling)
  | unknownLetter letter => "No such option " ++ Text.quoted ['-', letter] ++ "."
  | valueMissing name => "Option " ++ Text.quoted name.spelling ++ " requires an argument."
  | valueUnwanted name => "Option " ++ Text.quoted name.spelling ++ " does not take a value."

/-! ## Cutting -/

/-- A command line cut up: the options given, in order and with their values, and the other arguments.
The value of an option that takes none is empty. -/
structure Line where
  given : List (Name × Text)
  arguments : List Text
deriving DecidableEq, Repr

def Line.give (name : Name) (value : Text) (line : Line) : Line :=
  { line with given := (name, value) :: line.given }

def Line.argue (argument : Text) (line : Line) : Line :=
  { line with arguments := argument :: line.arguments }

/-- An argument that is an option, as it is to be read: an option with the value behind an equals sign
if there is one, or single letters. -/
inductive Switch
  | long (name : Name) (value : Option Text)
  | letters (names : List Name)
deriving DecidableEq, Repr

/-- The part of an argument before its first equals sign, and the part behind it. -/
def splitValue (argument : Text) : Text × Option Text :=
  match argument.dropWhile (· != '=') with
  | [] => (argument, none)
  | _ :: value => (argument.takeWhile (· != '='), some value)

def letterNames : Text → Except OptionFault (List Name)
  | [] => .ok []
  | letter :: rest =>
    match Name.ofLetter? letter with
    | some name => (name :: ·) <$> letterNames rest
    | none => .error (.unknownLetter letter)

/-- How an argument that starts with a hyphen is to be read: as a spelled option if it is one, else as
single letters unless two hyphens start it. -/
def switchOf (argument : Text) : Except OptionFault Switch :=
  let (spelling, value) := splitValue argument
  match Name.ofSpelling? spelling with
  | some name => .ok (.long name value)
  | none =>
    match argument with
    | '-' :: '-' :: _ => .error (.unknown spelling)
    | _ => Switch.letters <$> letterNames (argument.drop 1)

def isSwitch (argument : Text) : Bool :=
  argument.head? = some '-' && 1 < argument.length

/-- A command line cut up. Two hyphens alone end the options; the value of an option is the rest of
its argument behind an equals sign, or else the next argument, whatever it looks like. -/
def cut : List Text → Except OptionFault Line
  | [] => .ok ⟨[], []⟩
  | argument :: rest =>
    if argument = "--" then .ok ⟨[], rest⟩
    else if isSwitch argument then
      match switchOf argument with
      | .error fault => .error fault
      | .ok (.letters names) => (names.foldr (Line.give · []) ·) <$> cut rest
      | .ok (.long name (some value)) =>
        if name.takesValue then Line.give name value <$> cut rest else .error (.valueUnwanted name)
      | .ok (.long name none) =>
        if name.takesValue then
          match rest with
          | [] => .error (.valueMissing name)
          | value :: rest => Line.give name value <$> cut rest
        else Line.give name [] <$> cut rest
    else Line.argue argument <$> cut rest

end StyleOrigin.Cli
