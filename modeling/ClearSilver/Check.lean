/-
# Checking template files

The checker parses every file it is given or finds, each on its own, and
reports how many parse, which do not and why. It can print the tree of each
file that parses, one line for each file, and a log of the tags it goes
through. A tree that cannot be written as JSON ends the run.

The files are checked one after the other. What they come to is kept in a
tally, from which the report is written when all of them are done.

Key definitions: `Verdict`, `Verdict.of`, `Tally`, `Tally.add`, `Tally.report`,
`check`, `runChecker`.
Key theorems: `Verdict.outcome_of`, `Options.shows_of_not_json`.
-/
import ClearSilver.CommandLine.Help
import ClearSilver.Files.Search
import ClearSilver.Files.Template
import ClearSilver.Tree.Dump
import ClearSilver.Tree.Load

namespace ClearSilver

/-- The patterns for the names of template files. -/
def defaultPatterns : List Text := ["*.cs", "*.cst"]

/-! ### One file -/

/-- A file with its tree or the reason why it has none, and the events of its
parsing. -/
structure Verdict where
  path : Path
  outcome : Except FileFault Command
  events : List Event

namespace Verdict

/-- The verdict on a file. -/
def of (fs : FileSystem) (p : Path) : Verdict :=
  match fs.readText .utf8 p with
  | .error fault => ⟨p, .error fault, []⟩
  | .ok source =>
    let r := templateRun source
    ⟨p, r.outcome.mapError fun f => .parse (f.located source p.text), r.events⟩

/-- A verdict gives what the parser of files gives. -/
theorem outcome_of (fs : FileSystem) (p : Path) : (of fs p).outcome = parseFile fs .utf8 p := by
  unfold of parseFile
  cases fs.readText .utf8 p with
  | error fault => rfl
  | ok source =>
    simp only [Bind.bind, Except.bind, parse]
    cases (templateRun source).outcome <;> rfl

/-- The log line of an event; where bodies begin and end is not logged. -/
def logLine? (v : Verdict) : Event → Option Text
  | .tag keyword offset =>
    some ("csparse.parser: tag " ++ keyword.quoted ++ " at offset " ++ decimal offset)
  | .finished n =>
    some ("csparse.parser: parsed " ++ v.path.text ++ ": " ++ decimal n ++ " top-level commands")
  | .bodyStart | .bodyEnd => none

def logLines (v : Verdict) : List Text := v.events.filterMap v.logLine?

end Verdict

/-- What is printed of the tree of a file. -/
def Options.treeText? (lib : JsonLibrary) (o : Options) (c : Command) : Option Text :=
  if o.tree then some c.dump
  else if o.json then lib.write (some 2) (.command c)
  else none

/-- Can what is asked for of the tree of a file be printed? -/
def Options.shows (lib : JsonLibrary) (o : Options) (c : Command) : Bool :=
  !(o.tree || o.json) || (o.treeText? lib c).isSome

theorem Options.shows_of_not_json {o : Options} (h : o.json = false) (lib : JsonLibrary)
    (c : Command) : o.shows lib c = true := by
  cases htree : o.tree <;> simp [shows, treeText?, h, htree]

/-- Why a file does not parse: the place in the source, or the message of the
file system or of the decoder. -/
def FileFault.reason : FileFault → Text
  | .parse e => e.placed ++ ": " ++ e.cause.message
  | fault => fault.message

/-! ### All files -/

/-- Why a run is broken off without a report. -/
inductive Abort
  | noLevel
  | pattern (fault : PatternFault)
  | nulInPath
  | unwritten
deriving DecidableEq

def Abort.message : Abort → Text
  | noLevel => "Level not an integer or a valid string: []"
  | pattern fault => fault.message
  | nulInPath => FileFault.nulInPath.message
  | unwritten =>
    "Error serializing to JSON: ValueError: Circular reference detected (depth exceeded)"

/-- What the files checked so far have come to. -/
structure Tally where
  /-- How many of them parse. -/
  parsed : Nat
  /-- Those that do not, with the reason. -/
  errors : List (Path × Text)
  printed : List Text
  logged : List Text

/-- What a run prints and the status it ends with. -/
structure Report where
  exit : Nat
  stdout : Text
  stderr : Text
deriving DecidableEq

namespace Tally

def start : Tally := ⟨0, [], [], []⟩

/-- One more file is checked. A path that cannot even be asked for ends the run,
and so does a tree that cannot be printed. -/
def add (lib : JsonLibrary) (o : Options) (t : Tally) (v : Verdict) : Except Abort Tally :=
  match v.outcome with
  | .ok c =>
    if o.shows lib c then
      .ok ⟨t.parsed + 1, t.errors, t.printed ++ (o.treeText? lib c).toList,
        t.logged ++ v.logLines⟩
    else .error .unwritten
  | .error .nulInPath => .error .nulInPath
  | .error fault =>
    .ok ⟨t.parsed, t.errors ++ [(v.path, fault.reason)], t.printed, t.logged ++ v.logLines⟩

/-- Is a file among those that do not parse? -/
def failed (t : Tally) (p : Path) : Bool := t.errors.any (·.1 = p)

/-- The line that says whether a file parses. -/
def statusLine (t : Tally) (p : Path) : Text :=
  (if t.failed p then "  FAIL  " else "  OK    ") ++ p.text

/-- The line with how many files parse. -/
def totalLine (t : Tally) : Text :=
  "  Total: " ++ decimal t.parsed ++ "/" ++ decimal (t.parsed + t.errors.length) ++
    " templates parse"

/-- The line of a file that does not parse. -/
def errorLine (error : Path × Text) : Text := "    " ++ error.1.text ++ ": " ++ error.2

/-- The lines after the total. -/
def errorSection (t : Tally) : List Text :=
  if t.errors.isEmpty then ["  All clear."] else "" :: "  Errors:" :: t.errors.map errorLine

/-- The report on some files. -/
def report (t : Tally) (o : Options) (files : List Path) : Report where
  exit := if t.errors.isEmpty then 0 else 1
  stdout := Text.lines
    (t.printed ++ (if o.verbose then files.map t.statusLine else []) ++
      [] :: t.totalLine :: t.errorSection)
  stderr := if o.level = some .debug then Text.lines t.logged else []

end Tally

/-- The patterns in force. -/
def Options.patternsInForce (o : Options) : List Text :=
  if o.patterns.isEmpty then defaultPatterns else o.patterns

/-- The report that some options ask for. -/
def check (lib : JsonLibrary) (fs : FileSystem) (o : Options) : Except Abort Report := do
  if o.level.isNone then throw .noLevel
  let files ← (collect fs o.patternsInForce (o.paths.map .ofText)).mapError .pattern
  let t ← files.foldlM (fun t p => t.add lib o (Verdict.of fs p)) Tally.start
  return t.report o files

/-- A run of the checker with some arguments. -/
def runChecker (lib : JsonLibrary) (fs : FileSystem) (arguments : List Text) :
    Except Abort Report :=
  match Options.read arguments with
  | .error .help => .ok ⟨0, helpText, []⟩
  | .error (.fault f) => .ok ⟨2, [], f.report⟩
  | .ok o => check lib fs o

end ClearSilver
