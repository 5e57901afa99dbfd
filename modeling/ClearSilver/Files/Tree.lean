/-
# File trees

A directory holds named entries, each a file or a directory. A path is
followed from the working directory, or from the root if it has one: every
component but the last must be a directory that is there, and `..` leads to
the directory above.

Key definitions: `Entry`, `FileSystem`, `FileSystem.look`, `FileSystem.isDir`,
`FileSystem.ofEntries`, `Entry.directories`.
-/
import ClearSilver.Files.Path

namespace ClearSilver

/-- A file with its bytes, or a directory. -/
inductive Entry
  | file (content : List UInt8)
  | dir (entries : List (Text × Entry))

/-- Why a path leads to no file. -/
inductive AccessFault
  | notFound | notDirectory | isDirectory
deriving DecidableEq

def AccessFault.number : AccessFault → Nat
  | notFound => 2
  | notDirectory => 20
  | isDirectory => 21

def AccessFault.text : AccessFault → Text
  | notFound => "No such file or directory"
  | notDirectory => "Not a directory"
  | isDirectory => "Is a directory"

namespace Entry

/-- The entry of a name. -/
def named? (name : Text) : List (Text × Entry) → Option Entry
  | [] => none
  | (n, e) :: es => if n = name then some e else named? name es

/-- The entries with one more; an entry of the same name is replaced. -/
def put (name : Text) (e : Entry) : List (Text × Entry) → List (Text × Entry)
  | [] => [(name, e)]
  | (n, old) :: es => if n = name then (n, e) :: es else (n, old) :: put name e es

/-- The entries of a directory. -/
def entries : Entry → List (Text × Entry)
  | file _ => []
  | dir es => es

def isDir : Entry → Bool
  | file _ => false
  | dir _ => true

/-- The entry at the end of some names. -/
def at? (e : Entry) : List Text → Option Entry
  | [] => some e
  | name :: names =>
    match named? name e.entries with
    | some child => child.at? names
    | none => none

/-- An entry put in the place of another; of two directories the entries are
kept together. -/
def mergedWith (added : Entry) : Option Entry → Entry
  | some (dir old) =>
    match added with
    | file content => file content
    | dir es => dir (es.foldl (fun held e => put e.1 e.2 held) old)
  | _ => added

/-- The entries with one more at the end of some names; the directories on
the way are made. -/
def insert (added : Entry) : List Text → List (Text × Entry) → List (Text × Entry)
  | [], es => es
  | [name], es => put name (added.mergedWith (named? name es)) es
  | name :: names, es =>
    put name (dir (insert added names (((named? name es).map entries).getD []))) es

mutual

/-- The directories from here down, as the names that lead to them; this one
has none. -/
def directories : Entry → List (List Text)
  | file _ => []
  | dir es => [] :: directoriesIn es

def directoriesIn : List (Text × Entry) → List (List Text)
  | [] => []
  | (name, e) :: es => e.directories.map (name :: ·) ++ directoriesIn es

end

end Entry

/-- The entries of the root and the way from there to the working directory. -/
structure FileSystem where
  root : Entry
  working : List Text

namespace FileSystem

/-- The place that some components lead to from a place. -/
def follow (fs : FileSystem) : (place : List Text) → (parts : List Text) →
    Except AccessFault (List Text)
  | place, [] => .ok place
  | place, part :: parts =>
    match fs.root.at? place with
    | none => .error .notFound
    | some (.file _) => .error .notDirectory
    | some (.dir es) =>
      if part = ("..".toList : Text) then fs.follow place.dropLast parts
      else if (Entry.named? part es).isSome then fs.follow (place ++ [part]) parts
      else .error .notFound

/-- The entry that a path leads to. -/
def look (fs : FileSystem) (p : Path) : Except AccessFault Entry :=
  match fs.follow (if p.root.isEmpty then fs.working else []) p.parts with
  | .error fault => .error fault
  | .ok place =>
    match fs.root.at? place with
    | none => .error .notFound
    | some e => .ok e

/-- Does the path lead to an entry? -/
def hasEntry (fs : FileSystem) (p : Path) : Bool := (fs.look p).toBool

/-- Does the path lead to a directory? -/
def isDir (fs : FileSystem) (p : Path) : Bool :=
  match fs.look p with
  | .ok e => e.isDir
  | .error _ => false

/-- The entries of the directory that a path leads to. -/
def entries (fs : FileSystem) (p : Path) : List (Text × Entry) :=
  match fs.look p with
  | .ok e => e.entries
  | .error _ => []

/-- The directories from a path down, as the names that lead to them. -/
def directories (fs : FileSystem) (p : Path) : List (List Text) :=
  match fs.look p with
  | .ok e => e.directories
  | .error _ => []

/-- A file system of some entries at their places below the root. -/
def ofEntries (working : List Text) (held : List (List Text × Entry)) : FileSystem :=
  ⟨.dir (held.foldl (fun es e => Entry.insert e.2 e.1 es) []), working⟩

end FileSystem
end ClearSilver
