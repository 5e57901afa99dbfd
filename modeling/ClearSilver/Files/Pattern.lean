/-
# File name patterns

In a pattern for a name `*` stands for any characters, `?` for one, and a
bracket for one of a set: `[abc]`, `[a-z]`, `[!abc]` for any other. A bracket
that is never closed stands for itself, and so does `]` right after the
opening. A hyphen stands for itself at either end of a set and right after a
range; a range whose ends are in the wrong order is empty.

A pattern for paths is names and patterns for names with `/` between them;
`**` alone stands for any number of directories.

Key definitions: `CharSet`, `Piece`, `Piece.matches`, `namePieces`, `Part`,
`PatternFault`, `patternParts`.
-/
import ClearSilver.Files.Path

namespace ClearSilver

/-! ### Sets of characters -/

/-- A set of characters, given by ranges or by what is not in them. -/
structure CharSet where
  negated : Bool
  ranges : List (Char × Char)

namespace CharSet

def mem (s : CharSet) (c : Char) : Bool :=
  (s.ranges.any fun r => r.1 ≤ c && c ≤ r.2) != s.negated

/-- Every character. -/
def all : CharSet := ⟨true, []⟩

def single (c : Char) : CharSet := ⟨false, [(c, c)]⟩

/-- The index of the first hyphen at or after an index. -/
def hyphenFrom? (start : Nat) (t : Text) : Option Nat :=
  let tail := t.drop start
  if tail.contains '-' then some (start + (tail.takeWhile (· ≠ '-')).length) else none

/-- The runs of characters between the hyphens that make ranges. After a
range its end is passed over in the search for the next hyphen. -/
def runsFrom : (budget : Nat) → (start : Nat) → Text → List Text
  | 0, _, t => [t]
  | budget + 1, start, t =>
    match hyphenFrom? start t with
    | none => [t]
    | some k => t.take k :: runsFrom budget 2 (t.drop (k + 1))

/-- A hyphen at the end belongs to the run before it. -/
def closeRuns : List Text → List Text
  | [] => []
  | [run, []] => [run ++ ['-']]
  | run :: runs => run :: closeRuns runs

/-- Leaves out the ranges whose ends are in the wrong order. -/
def dropEmpty : List Text → List Text
  | [] => []
  | run :: runs =>
    match dropEmpty runs with
    | [] => [run]
    | next :: rest =>
      match run.getLast?, next.head? with
      | some a, some b => if b < a then (run.dropLast ++ next.tail) :: rest else run :: next :: rest
      | _, _ => run :: next :: rest

/-- The characters of the runs, with `none` for each hyphen that makes a range. -/
def items : List Text → List (Option Char)
  | [] => []
  | [run] => run.map some
  | run :: runs => run.map some ++ none :: items runs

/-- The ranges of the items; a character alone is a range of one, and so is
a hyphen with no character before it. -/
def rangesOf : List (Option Char) → List (Char × Char)
  | some a :: none :: some b :: r => (a, b) :: rangesOf r
  | some a :: r => (a, a) :: rangesOf r
  | none :: r => ('-', '-') :: rangesOf r
  | [] => []

/-- The runs of what stands in a bracket. -/
def runs (t : Text) : List Text :=
  if t.contains '-' then
    dropEmpty (closeRuns (runsFrom t.length (if t.head? = some '!' then 2 else 1) t))
  else [t]

/-- The set that stands in a bracket. -/
def ofText (t : Text) : CharSet :=
  match items (runs t) with
  | some '!' :: rest => ⟨true, rangesOf rest⟩
  | found => ⟨false, rangesOf found⟩

end CharSet

/-! ### Patterns for a name -/

/-- A piece of a pattern: any characters, or one of a set. -/
inductive Piece
  | star
  | one (s : CharSet)

/-- A text and every text left when some of its first characters are gone. -/
def Text.suffixes : Text → List Text
  | [] => [[]]
  | c :: r => (c :: r) :: suffixes r

/-- Does a pattern match a whole name? -/
def Piece.matches : List Piece → Text → Bool
  | [], t => t.isEmpty
  | .star :: ps, t => t.suffixes.any (Piece.matches ps)
  | .one s :: ps, t =>
    match t with
    | [] => false
    | c :: r => s.mem c && Piece.matches ps r

/-- What stands in a bracket that has just opened, and the text after it. -/
def bracket? (t : Text) : Option (Text × Text) :=
  let mark := if t.head? = some '!' then 1 else 0
  let first := if (t.drop mark).head? = some ']' then mark + 1 else mark
  let body := (t.drop first).takeWhile (· ≠ ']')
  match (t.drop first).dropWhile (· ≠ ']') with
  | [] => none
  | _ :: rest => some (t.take first ++ body, rest)

/-- The pieces of a pattern, which has at most `budget` characters. -/
def piecesWithin : (budget : Nat) → Text → List Piece
  | 0, _ => []
  | _, [] => []
  | budget + 1, c :: r =>
    if c = '*' then .star :: piecesWithin budget r
    else if c = '?' then .one .all :: piecesWithin budget r
    else if c = '[' then
      match bracket? r with
      | some (inside, rest) => .one (.ofText inside) :: piecesWithin budget rest
      | none => .one (.single '[') :: piecesWithin budget r
    else .one (.single c) :: piecesWithin budget r

/-- The pieces of a pattern for a name. -/
def namePieces (t : Text) : List Piece := piecesWithin t.length t

/-! ### Patterns for paths -/

/-- A part of a pattern for paths. -/
inductive Part
  /-- Any number of directories. -/
  | anyDepth
  /-- A name, or `..`. -/
  | exact (name : Text)
  /-- The names that match. -/
  | wild (pieces : List Piece)
  /-- What the parts before it lead to, which must be a directory. -/
  | here

/-- Why a text is no pattern for paths. -/
inductive PatternFault
  | absolute
  | starsInName
deriving DecidableEq

def PatternFault.message : PatternFault → Text
  | absolute => "Non-relative patterns are unsupported"
  | starsInName => "Invalid pattern: '**' can only be an entire path component"

/-- Does `**` stand somewhere in a text? -/
def hasDoubleStar : Text → Bool
  | '*' :: '*' :: _ => true
  | _ :: r => hasDoubleStar r
  | [] => false

/-- The part that a component is. -/
def partOf (t : Text) : Except PatternFault Part :=
  if t = ("**".toList : Text) then .ok .anyDepth
  else if hasDoubleStar t then .error .starsInName
  else if t.any fun c => c = '*' || c = '?' || c = '[' then .ok (.wild (namePieces t))
  else .ok (.exact t)

/-- The parts of a pattern for paths; a slash at its end asks for a directory. -/
def patternParts (t : Text) : Except PatternFault (List Part) :=
  let p := Path.ofText t
  if p.root.isEmpty then do
    let parts ← p.parts.mapM partOf
    return if t.getLast? = some '/' then parts ++ [.here] else parts
  else .error .absolute

end ClearSilver
