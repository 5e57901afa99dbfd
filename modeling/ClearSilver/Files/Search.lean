/-
# Searching directories

A pattern is searched for at every depth below a directory. The paths found
by any of some patterns are listed once, in the order of paths. A list of
paths is expanded by putting for each directory what is found below it; any
other path stands for itself.

Key definitions: `FileSystem.select`, `FileSystem.search`, `collect`.
-/
import ClearSilver.Files.Pattern
import ClearSilver.Files.Tree

namespace ClearSilver

namespace FileSystem

/-- The paths that the parts of a pattern lead to from a path. All parts but
the last lead only to directories. -/
def select (fs : FileSystem) : List Part → Path → List Path
  | [], p => [p]
  | .here :: _, p => [p]
  | .anyDepth :: parts, p => (fs.directories p).flatMap fun names => fs.select parts (p.below names)
  | .exact name :: parts, p =>
    let q := p.child name
    if (if parts.isEmpty then fs.hasEntry q else fs.isDir q) then fs.select parts q else []
  | .wild pieces :: parts, p =>
    (fs.entries p).flatMap fun (name, e) =>
      if (parts.isEmpty || e.isDir) && Piece.matches pieces name then
        fs.select parts (p.child name)
      else []

/-- What some patterns find below a directory, each path once and in order. -/
def search (fs : FileSystem) (patterns : List Text) (p : Path) :
    Except PatternFault (List Path) := do
  let parts ← patterns.mapM patternParts
  let found := parts.flatMap fun ps => fs.select (.anyDepth :: ps) p
  return found.eraseDups.mergeSort Path.le

end FileSystem

/-- The files that a list of paths stands for. -/
def collect (fs : FileSystem) (patterns : List Text) (paths : List Path) :
    Except PatternFault (List Path) := do
  let found ← paths.mapM fun p => if fs.isDir p then fs.search patterns p else pure [p]
  return found.flatten

end ClearSilver
