/-
# Lines and columns

A source is cut into lines by the line feed alone. The line of an offset is
the number of line starts at or before it, its column the distance from the
last of them, both counted from 1; an offset past the end counts on the last
line.

Key definitions: `lineStarts`, `Location.among`, `location`.
Key theorems: `lineStarts_length`, `le_of_mem_lineFeedEnds`.
-/
import ClearSilver.Text.Basic

namespace ClearSilver

/-- A line and a column, both counted from 1. -/
structure Location where
  line : Nat
  column : Nat
deriving DecidableEq

/-- The offsets just after the line feeds of a text that begins at `offset`. -/
def lineFeedEnds (offset : Nat) : Text → List Nat
  | [] => []
  | c :: r =>
    if c = '\n' then (offset + 1) :: lineFeedEnds (offset + 1) r else lineFeedEnds (offset + 1) r

/-- The offsets at which the lines of a source begin. -/
def lineStarts (source : Text) : List Nat := 0 :: lineFeedEnds 0 source

/-- The line and the column of an offset, where the lines begin at `starts`. -/
def Location.among (starts : List Nat) (offset : Nat) : Location :=
  let before := starts.takeWhile (· ≤ offset)
  ⟨before.length, offset - before.getLastD 0 + 1⟩

/-- The line and the column of an offset of a source. -/
def location (source : Text) (offset : Nat) : Location :=
  .among (lineStarts source) offset

theorem lineFeedEnds_length : ∀ (offset : Nat) (t : Text),
    (lineFeedEnds offset t).length = t.count '\n'
  | _, [] => rfl
  | offset, c :: r => by
    unfold lineFeedEnds
    split
    · rename_i h
      simp [h, lineFeedEnds_length (offset + 1) r]
    · rename_i h
      simp [h, lineFeedEnds_length (offset + 1) r]

/-- A source has one line more than it has line feeds. -/
theorem lineStarts_length (source : Text) :
    (lineStarts source).length = source.count '\n' + 1 := by
  simp [lineStarts, lineFeedEnds_length]

theorem le_of_mem_lineFeedEnds : ∀ {offset : Nat} {t : Text} {k : Nat},
    k ∈ lineFeedEnds offset t → offset < k ∧ k ≤ offset + t.length
  | _, [], _, h => by simp [lineFeedEnds] at h
  | offset, c :: r, k, h => by
    unfold lineFeedEnds at h
    split at h
    · rcases List.mem_cons.mp h with rfl | h
      · simp
      · have := le_of_mem_lineFeedEnds h
        simp only [List.length_cons]
        omega
    · have := le_of_mem_lineFeedEnds h
      simp only [List.length_cons]
      omega

end ClearSilver
