/-
# The program

The program looks at the paths among its arguments, loads what is there, runs
the checker on it and prints its report.

Key definitions: `Program.load`, `Program.snapshot`, `main`.
-/
import ClearSilver.Check

namespace ClearSilver
namespace Program

/-- The entry at a place on the disk, with all that is below it. -/
partial def load (place : String) : IO (Option Entry) := do
  let here : IO.FS.DirEntry := { root := place, fileName := "" }
  if ← here.root.isDir then
    let mut held : List (Text × Entry) := []
    for e in ← here.root.readDir do
      if let some entry ← load e.path.toString then held := (e.fileName.toList, entry) :: held
    return some (.dir held.reverse)
  else if ← here.root.pathExists then
    return some (.file (← IO.FS.readBinFile place).toList)
  else return none

/-- The places on the way to the end of some components, with the last marked. -/
def onTheWay (from' : List Text) : List Text → List (List Text × Bool)
  | [] => [(from', true)]
  | part :: parts =>
    let next := if part = "..".toList then from'.dropLast else from' ++ [part]
    (from', false) :: onTheWay next parts

/-- What is at some paths, each directory on the way to one included. -/
def snapshot (working : List Text) (paths : List Path) : IO FileSystem := do
  let mut held : List (List Text × Entry) := [(working, .dir [])]
  for p in paths do
    for (place, last) in onTheWay (if p.root.isEmpty then working else []) p.parts do
      let name := String.ofList ("/".toList ++ Text.joined "/" place)
      let here : IO.FS.DirEntry := { root := name, fileName := "" }
      if last then
        if let some entry ← load name then held := held ++ [(place, entry)]
      else if ← here.root.isDir then held := held ++ [(place, .dir [])]
      else if ← here.root.pathExists then held := held ++ [(place, .file [])]
  return .ofEntries working held

/-- Checks the template files that the arguments name. -/
def checkArguments (args : List String) : IO UInt32 := do
  let arguments : List Text := args.map (·.toList)
  let working := Path.partsOf (← IO.currentDir).toString.toList
  let fs ← match Options.read arguments with
    | .ok o => snapshot working (o.paths.map .ofText)
    | .error _ => pure (.ofEntries working [])
  match runChecker .standard fs arguments with
  | .ok r =>
    IO.print (String.ofList r.stdout)
    IO.eprint (String.ofList r.stderr)
    return UInt32.ofNat r.exit
  | .error abort =>
    IO.eprintln (String.ofList abort.message)
    return 1

end Program
end ClearSilver

/-- The program on its arguments. -/
def main (args : List String) : IO UInt32 := ClearSilver.Program.checkArguments args
