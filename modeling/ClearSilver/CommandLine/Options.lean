/-
# The command line

The arguments are options and paths. An option that takes a value takes the
next argument, or what follows `=`; a long option may be cut short as long as
one option begins with it; short options may stand behind one hyphen. After
`--` everything is a path. The paths stand together: a path after the first
run of them is not recognized. An attached value `--` counts as none.

Every argument is first given a role on its own (`Argument.ofText`); then the
arguments are read from left to right, and the first fault ends the reading.

Key definitions: `Opt`, `Argument`, `Options`, `UsageFault`, `Stop`,
`Options.read`.
-/
import ClearSilver.Text.DecimalDigit
import ClearSilver.Text.Quoted
import ClearSilver.Text.Upper

namespace ClearSilver

/-! ### Options -/

inductive Opt
  | help | pattern | tree | json | verbose | logLevel
deriving DecidableEq

/-- How much a run logs. -/
inductive LogLevel
  | debug | info | warning | error | critical
deriving DecidableEq

def LogLevel.text : LogLevel → Text
  | debug => "DEBUG"
  | info => "INFO"
  | warning => "WARNING"
  | error => "ERROR"
  | critical => "CRITICAL"

def LogLevel.all : List LogLevel := [debug, info, warning, error, critical]

namespace Opt

/-- Every spelling of an option. -/
def spellings : List (Text × Opt) :=
  [("-h", help), ("--help", help), ("--pattern", pattern), ("--tree", tree), ("--json", json),
   ("--verbose", verbose), ("-v", verbose), ("--log-level", logLevel)]

def ofSpelling? (t : Text) : Option Opt := (spellings.find? (·.1 = t)).map (·.2)

/-- How messages name an option. -/
def name (o : Opt) : Text :=
  Text.joined "/" ((spellings.filter (·.2 = o)).map (·.1))

def takesValue : Opt → Bool
  | pattern | logLevel => true
  | _ => false

end Opt

/-! ### Faults -/

/-- Why the arguments cannot be used. -/
inductive UsageFault
  | ambiguous (given : Text) (spellings : List Text)
  | ignoredValue (o : Opt) (value : Text)
  | missingValue (o : Opt)
  | conflict (o other : Opt)
  | unknownLevel (value : Text)
  | missingPaths
  | unrecognized (arguments : List Text)

/-- A message about an option. -/
def Opt.about (o : Opt) (message : Text) : Text := "argument " ++ o.name ++ ": " ++ message

def UsageFault.message : UsageFault → Text
  | ambiguous given spellings =>
    "ambiguous option: " ++ given ++ " could match " ++ Text.joined ", " spellings
  | ignoredValue o value => o.about ("ignored explicit argument " ++ value.quoted)
  | missingValue o => o.about "expected one argument"
  | conflict o other => o.about ("not allowed with argument " ++ other.name)
  | unknownLevel value =>
    Opt.logLevel.about ("invalid choice: " ++ value.quoted ++ " (choose from " ++
      Text.joined ", " (LogLevel.all.map (·.text.quoted)) ++ ")")
  | missingPaths => "the following arguments are required: paths"
  | unrecognized arguments => "unrecognized arguments: " ++ Text.joined " " arguments

/-- Why the reading of the arguments ends early. -/
inductive Stop
  | help
  | fault (f : UsageFault)

/-! ### The roles of arguments -/

/-- A value written in the same argument as its option, after `=` or right
behind a short option. -/
structure Attached where
  value : Text
  /-- Does it stand behind a short option? Then it may hold more of them. -/
  behindShort : Bool

/-- The role of an argument. -/
inductive Argument
  | plain (t : Text)
  /-- The first `--`. -/
  | separator
  | option (o : Opt) (attached : Option Attached)
  /-- It looks like an option, but there is none like it. -/
  | unknown (t : Text)

namespace Argument

/-- A hyphen, digits, and perhaps a point and digits; a line feed may follow. -/
def looksNegative : Text → Bool
  | '-' :: t =>
    let t := if t.getLast? = some '\n' then t.dropLast else t
    let fraction := t.dropWhile isDecimalDigit
    if fraction.isEmpty then !t.isEmpty
    else fraction.head? = some '.' && 1 < fraction.length && fraction.tail.all isDecimalDigit
  | _ => false

/-- What stands before the first `=`, and what after it if there is one. -/
def cutAtEquals (t : Text) : Text × Option Attached :=
  match t.dropWhile (· ≠ '=') with
  | [] => (t, none)
  | _ :: value => (t.takeWhile (· ≠ '='), some ⟨value, !t.startsWith "--"⟩)

/-- The options that an argument with a hyphen may mean, with their spellings. -/
def readings (t : Text) : List (Text × Argument) :=
  if t.startsWith "--" then
    let (stem, attached) := cutAtEquals t
    (Opt.spellings.filter (·.1.startsWith stem)).map fun s => (s.1, .option s.2 attached)
  else
    (Opt.spellings.filter (·.1 = t.take 2)).map fun s =>
      (s.1, .option s.2 (some ⟨t.drop 2, true⟩))

/-- The role of an argument that begins with a hyphen and is more than that. -/
def ofHyphened (t : Text) : Except UsageFault Argument :=
  match Opt.ofSpelling? t with
  | some o => .ok (.option o none)
  | none =>
    let (stem, attached) := cutAtEquals t
    match attached, Opt.ofSpelling? stem with
    | some value, some o => .ok (.option o (some value))
    | _, _ =>
      match readings t with
      | [] => .ok (if looksNegative t || t.contains ' ' then .plain t else .unknown t)
      | [(_, a)] => .ok a
      | found => .error (.ambiguous t (found.map (·.1)))

/-- The role of an argument before `--`. -/
def ofText (t : Text) : Except UsageFault Argument :=
  if t.head? = some '-' && 1 < t.length then ofHyphened t else .ok (.plain t)

/-- The roles of all arguments. -/
def ofTexts : List Text → Except UsageFault (List Argument)
  | [] => .ok []
  | t :: ts =>
    if t = ("--".toList : Text) then .ok (separator :: ts.map plain)
    else do
      let a ← ofText t
      let rest ← ofTexts ts
      return a :: rest

end Argument

/-! ### Reading the arguments -/

/-- What the arguments ask for. -/
structure Options where
  paths : List Text
  patterns : List Text
  tree : Bool
  json : Bool
  verbose : Bool
  level : Option LogLevel

/-- What has been read so far: the paths, if they have been read, and the
arguments that were not recognized. -/
structure Progress where
  paths : Option (List Text)
  patterns : List Text
  tree : Bool
  json : Bool
  verbose : Bool
  level : Option LogLevel
  extras : List Text

namespace Progress

def start : Progress := ⟨none, [], false, false, false, some .warning, []⟩

/-- An option without a value takes effect. -/
def flag (p : Progress) : Opt → Except Stop Progress
  | .help => .error .help
  | .tree => if p.json then .error (.fault (.conflict .tree .json)) else .ok { p with tree := true }
  | .json => if p.tree then .error (.fault (.conflict .json .tree)) else .ok { p with json := true }
  | .verbose => .ok { p with verbose := true }
  | .pattern | .logLevel => .ok p

/-- An option takes effect whose attached value is `--`, which is no value:
a pattern is then empty, and there is no level to log from. -/
def setNothing (p : Progress) : Opt → Progress
  | .pattern => { p with patterns := p.patterns ++ [[]] }
  | .logLevel => { p with level := none }
  | _ => p

/-- An option with a value takes effect. -/
def setValue (p : Progress) (o : Opt) (value : Text) : Except Stop Progress :=
  match o with
  | .pattern => .ok { p with patterns := p.patterns ++ [value] }
  | .logLevel =>
    match LogLevel.all.find? (·.text = value.upper) with
    | some level => .ok { p with level := some level }
    | none => .error (.fault (.unknownLevel value.upper))
  | _ => .ok p

/-- The options that stand behind one hyphen: `o`, then one for each
character. -/
def cluster (o : Opt) : Text → Except UsageFault (List Opt)
  | [] => .ok [o]
  | c :: r =>
    match Opt.ofSpelling? ['-', c] with
    | none => .error (.ignoredValue o (c :: r))
    | some next => (cluster next r).map (o :: ·)

/-- An option without a value takes effect with what is attached to it. -/
def attachedFlag (p : Progress) (o : Opt) (a : Attached) : Except Stop Progress :=
  if a.behindShort && !a.value.isEmpty then
    match cluster o a.value with
    | .error f => .error (.fault f)
    | .ok os => os.foldlM flag p
  else .error (.fault (.ignoredValue o a.value))

/-- A run of arguments that are no options: the first run with a path in it
is the paths, without the `--` in it; every other is not recognized. -/
def plainRun (p : Progress) (run : List Argument) : Progress :=
  let words := run.filterMap fun
    | .plain t => some t
    | _ => none
  let texts := run.filterMap fun
    | .plain t => some t
    | .separator => some "--"
    | _ => none
  if p.paths.isNone && !words.isEmpty then { p with paths := some words }
  else { p with extras := p.extras ++ texts }

/-- Reads the arguments; `run` is the run of plain ones just before them. -/
def go : List Argument → (run : List Argument) → Progress → Except Stop Progress
  | [], run, p => .ok (p.plainRun run)
  | .plain t :: rest, run, p => go rest (run ++ [.plain t]) p
  | .separator :: rest, run, p => go rest (run ++ [.separator]) p
  | .unknown t :: rest, run, p =>
    let p := p.plainRun run
    go rest [] { p with extras := p.extras ++ [t] }
  | .option o attached :: rest, run, p =>
    let p := p.plainRun run
    match attached, o.takesValue with
    | none, false => p.flag o >>= go rest []
    | some a, true =>
      if a.value = ("--".toList : Text) then go rest [] (p.setNothing o)
      else p.setValue o a.value >>= go rest []
    | some a, false => p.attachedFlag o a >>= go rest []
    | none, true =>
      match rest with
      | .plain value :: rest' => p.setValue o value >>= go rest' []
      | _ => .error (.fault (.missingValue o))

end Progress

namespace Options

/-- What the arguments ask for, if they can be used. -/
def read (arguments : List Text) : Except Stop Options := do
  let roles ← (Argument.ofTexts arguments).mapError .fault
  let p ← Progress.go roles [] .start
  match p.paths with
  | none => throw (.fault .missingPaths)
  | some paths =>
    if p.extras.isEmpty then return ⟨paths, p.patterns, p.tree, p.json, p.verbose, p.level⟩
    else throw (.fault (.unrecognized p.extras))

end Options
end ClearSilver
