/-
# Parsing a template file

A file is opened, decoded, its line ends made line feeds, and then parsed
under its own path as the name of the source.

Key definitions: `FileFault`, `FileFault.message`, `FileSystem.readText`,
`parseFile`.
-/
import ClearSilver.Files.Decode
import ClearSilver.Files.Tree
import ClearSilver.Parse

namespace ClearSilver

/-- Why a template file has no tree. -/
inductive FileFault
  /-- The path holds a NUL character, which no name can. -/
  | nulInPath
  | access (fault : AccessFault) (path : Path)
  | decode (fault : DecodeFault)
  | parse (error : ParseError)

/-- A fault of the file system, with its number and the path. -/
def AccessFault.message (f : AccessFault) (p : Path) : Text :=
  "[Errno " ++ decimal f.number ++ "] " ++ f.text ++ ": " ++ p.text.quoted

def FileFault.message : FileFault → Text
  | nulInPath => "embedded null byte"
  | access fault path => fault.message path
  | decode fault => fault.message
  | parse error => error.message

namespace FileSystem

/-- The bytes of a file. -/
def readBytes (fs : FileSystem) (p : Path) : Except FileFault (List UInt8) :=
  if p.parts.any (·.contains '\x00') then .error .nulInPath
  else
    match fs.look p with
    | .error fault => .error (.access fault p)
    | .ok (.dir _) => .error (.access .isDirectory p)
    | .ok (.file bytes) => .ok bytes

/-- The text of a file, its line ends made line feeds. -/
def readText (fs : FileSystem) (encoding : Encoding) (p : Path) : Except FileFault Text := do
  let bytes ← fs.readBytes p
  let text ← (encoding.decode bytes).mapError .decode
  return text.withLineFeeds

end FileSystem

/-- The tree of a template file. -/
def parseFile (fs : FileSystem) (encoding : Encoding) (p : Path) : Except FileFault Command := do
  let source ← fs.readText encoding p
  (parse source p.text).mapError .parse

end ClearSilver
