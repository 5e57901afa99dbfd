/-
# What the command line tells about itself

The usage is shown before every message about the arguments, the help on
request. Both are laid out for a line of eighty characters.

Key definitions: `programName`, `usageText`, `helpText`, `UsageFault.report`.
-/
import ClearSilver.CommandLine.Options

namespace ClearSilver

def programName : Text := "csparse-check"

/-- The lines, each with its line feed. -/
def Text.lines (ls : List Text) : Text := ls.flatMap (· ++ ['\n'])

/-- The levels between braces. -/
def levelChoices : Text :=
  "\x7b" ++ Text.joined "," (LogLevel.all.map (·.text)) ++ "\x7d"

def usageText : Text :=
  Text.lines
    ["usage: " ++ programName ++ " [-h] [--pattern PATTERN] [--tree | --json] [--verbose]",
     "                     [--log-level " ++ levelChoices ++ "]",
     "                     paths [paths ...]"]

def helpText : Text :=
  usageText ++ Text.lines
    ["",
     "Check ClearSilver templates for syntax errors",
     "",
     "positional arguments:",
     "  paths                 Template files or directories",
     "",
     "options:",
     "  -h, --help            show this help message and exit",
     "  --pattern PATTERN     Glob used when searching directories (default:",
     "                        ['*.cs', '*.cst'])",
     "  --tree                Print each parsed tree",
     "  --json                Print each parsed tree as JSON",
     "  --verbose, -v",
     "  --log-level " ++ levelChoices,
     "                        Logging level (default: WARNING)"]

/-- The usage and what is wrong. -/
def UsageFault.report (f : UsageFault) : Text :=
  usageText ++ Text.lines [programName ++ ": error: " ++ f.message]

end ClearSilver
