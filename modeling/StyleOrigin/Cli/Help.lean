import StyleOrigin.Text.Basic

/-!
The fixed texts of the command line: the usage reminder, the help page and the version.
-/
set_option autoImplicit false

namespace StyleOrigin.Cli

def usageLine : Text :=
  "Usage: untangle [OPTIONS] FILE"

def usageReminder : List Text :=
  [usageLine, "Try 'untangle --help' for help.", ""]

def versionLine : Text :=
  "untangle, version 0.1.0"

/-- The lines of the help page behind the usage line. -/
def helpBody : List Text :=
  ["",
   "  Untangle media queries.",
   "",
   "  Matches every rule inside the @media blocks of FILE to the source stylesheet",
   "  that references its selector. All console output other than stylesheet",
   "  fragments is wrapped in CSS block comments for easier piping to files.",
   "",
   "Options:",
   "  --version                       Show the version and exit.",
   "  --print-queries                 Print the cherry-picked media queries for each",
   "                                  matched file.",
   "  --show-unmatched                List the unmatched styles and where in the",
   "                                  file they are.",
   "  --ignore PATH                   Ignore a file path. Can be used multiple",
   "                                  times.",
   "  --root-glob GLOB                Limit searches to paths matching GLOB.",
   "  --verbose                       Show errors and extra messages.",
   "  --extension TEXT                Extension of source stylesheets.  [default:",
   "                                  less]",
   "  --concurrency INTEGER RANGE     Maximum concurrent searches.  [default: 10;",
   "                                  x>=1]",
   "  --preprocessor TEXT             Command that expands the input.  [default:",
   "                                  lessc]",
   "  --no-compile                    Read the input as plain CSS, skipping the",
   "                                  preprocessor.",
   "  --search-timeout FLOAT RANGE    Seconds allowed for each search.  [default:",
   "                                  30.0; x>0]",
   "  --preprocess-timeout FLOAT RANGE",
   "                                  Seconds allowed for the preprocessor.",
   "                                  [default: 120.0; x>0]",
   "  -h, --help                      Show this message and exit."]

def helpPage : List Text :=
  usageLine :: helpBody

end StyleOrigin.Cli
