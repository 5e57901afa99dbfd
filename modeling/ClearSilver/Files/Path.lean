/-
# Paths

A path is its root, which is empty for a relative path, and its components.
Empty components and `.` are left out, `..` stays. Exactly two slashes at the
beginning are a root of their own.

Key definitions: `Path`, `Path.ofText`, `Path.text`, `Path.components`,
`Path.le`.
-/
import ClearSilver.Text.Basic

namespace ClearSilver

/-- The parts of a text between separators, one more than there are of them. -/
def Text.splitAtAll (separator : Char) : Text → List Text
  | [] => [[]]
  | c :: r =>
    if c = separator then [] :: splitAtAll separator r
    else
      match splitAtAll separator r with
      | [] => [[c]]
      | t :: ts => (c :: t) :: ts

structure Path where
  root : Text
  parts : List Text
deriving DecidableEq

namespace Path

/-- The components of a text, without the empty ones and `.`. -/
def partsOf (t : Text) : List Text :=
  (t.splitAtAll '/').filter fun p => !p.isEmpty && p ≠ (".".toList : Text)

/-- The slashes at the beginning: none, one root, or two that stay two. -/
def rootOf (t : Text) : Text :=
  match (t.takeWhile (· = '/')).length with
  | 0 => []
  | 2 => "//"
  | _ => "/"

def ofText (t : Text) : Path := ⟨rootOf t, partsOf t⟩

/-- The path as it is written; the empty path is `.`. -/
def text (p : Path) : Text :=
  if p.root.isEmpty && p.parts.isEmpty then "." else p.root ++ Text.joined "/" p.parts

/-- The path of an entry of a directory. -/
def child (p : Path) (name : Text) : Path := { p with parts := p.parts ++ [name] }

/-- The path some components further down. -/
def below (p : Path) (names : List Text) : Path := { p with parts := p.parts ++ names }

/-- The components with the root first. -/
def components (p : Path) : List Text := if p.root.isEmpty then p.parts else p.root :: p.parts

/-- The order of paths is that of their components, one after the other: so
`a/b` comes before `a.c`. -/
def le (p q : Path) : Bool := !decide (q.components < p.components)

end Path
end ClearSilver
