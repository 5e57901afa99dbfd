/-
# Reading a value with all its faults

A value is read in some role: as a text, an integer, a list, a node. Reading
gives what was read or every fault that was found, each with the path of
keys, tags and indices that leads to it. The faults of several parts are
those of the first part, then those of the second, and so on.

Key definitions: `Issue`, `Reading`, `Reading.apply`, `Reading.beneath`,
`Reading.each`.
-/
import ClearSilver.Text.Basic

namespace ClearSilver

/-! ### Faults and their places -/

/-- A step from a value to a part of it. -/
inductive Place
  | key (name : Text)
  | index (n : Nat)
deriving DecidableEq

/-- What can be wrong with a value in the role it is read in. -/
inductive IssueKind
  | objectExpected
  | tagMissing
  | tagUnknown
  | missing
  | positionExpected
  | arrayExpected
  | tooShort
  | textExpected
  | integerExpected
  | notANumeral
  | fractional
  | outOfRange
  | notFinite
deriving DecidableEq

/-- A fault and the path to it. -/
structure Issue where
  kind : IssueKind
  path : List Place
deriving DecidableEq

/-- What was read, or all faults that were found. -/
inductive Reading (α : Type)
  | ok (a : α)
  | bad (issues : List Issue)

namespace Reading

/-- The faults of a reading. -/
def issues {α : Type} : Reading α → List Issue
  | ok _ => []
  | bad issues => issues

/-- A reading with one fault, here. -/
def issue {α : Type} (kind : IssueKind) : Reading α := bad [⟨kind, []⟩]

def map {α β : Type} (f : α → β) : Reading α → Reading β
  | ok a => ok (f a)
  | bad issues => bad issues

/-- A function and its argument, with the faults of both. -/
def apply {α β : Type} : Reading (α → β) → Reading α → Reading β
  | ok f, ok a => ok (f a)
  | ok _, bad issues => bad issues
  | bad issues, a => bad (issues ++ a.issues)

instance : Applicative Reading where
  pure := ok
  map := map
  seq f a := apply f (a ())

/-- A reading of a part, its faults placed under the whole. -/
def beneath {α : Type} (place : Place) : Reading α → Reading α
  | ok a => ok a
  | bad issues => bad (issues.map fun i => ⟨i.kind, place :: i.path⟩)

/-- The readings of the items of a list, from index `n` on. -/
def each {α : Type} : (n : Nat) → List (Reading α) → Reading (List α)
  | _, [] => ok []
  | n, r :: rs => List.cons <$> r.beneath (.index n) <*> each (n + 1) rs

end Reading

end ClearSilver
