/-
# Lines and columns by counting

The lines that begin at or before an offset are those that begin in the text
before it, so the line of an offset counts the line feeds of that text, and the
last of the line starts is just behind the last of them. What that leaves
(`Text.lastLine`) is the column.

Key definitions: `Text.lastLine`, `Text.lastLineBegin`.
Key theorems: `location_line`, `location_column`, `location_column_inside`.
-/
import ClearSilver.Text.Location
import Mathlib.Data.List.TakeWhile

namespace ClearSilver

/-- What stands behind the last line feed, all of the text if there is none. -/
def Text.lastLine (t : Text) : Text := (t.reverse.takeWhile (· ≠ '\n')).reverse

/-- The offset just behind the last line feed, 0 if there is none. -/
def Text.lastLineBegin (t : Text) : Nat := (t.reverse.dropWhile (· ≠ '\n')).length

/-! ### The starts of the lines of a text -/

theorem lineFeedEnds_append : ∀ (offset : Nat) (t u : Text),
    lineFeedEnds offset (t ++ u) = lineFeedEnds offset t ++ lineFeedEnds (offset + t.length) u
  | _, [], _ => rfl
  | offset, c :: t, u => by
    have ih := lineFeedEnds_append (offset + 1) t u
    have hlen : offset + 1 + t.length = offset + (c :: t).length := by
      rw [List.length_cons]
      omega
    rw [hlen] at ih
    simp only [List.cons_append, lineFeedEnds, ih]
    split
    · rfl
    · rfl

/-- A character other than a line feed can be changed for another without a
change of the lines. -/
theorem lineStarts_change (u r : Text) (c c' : Char) (hc : c ≠ '\n') (hc' : c' ≠ '\n') :
    lineStarts (u ++ c :: r) = lineStarts (u ++ c' :: r) := by
  simp only [lineStarts, lineFeedEnds_append, lineFeedEnds, if_neg hc, if_neg hc']

/-- The lines that begin up to an offset are those of the text before it. -/
theorem takeWhile_lineFeedEnds : ∀ (offset n : Nat) (t : Text),
    (lineFeedEnds offset t).takeWhile (· ≤ offset + n) = lineFeedEnds offset (t.take n)
  | offset, 0, t => by
    rw [Nat.add_zero, List.take_zero, lineFeedEnds]
    cases h : lineFeedEnds offset t with
    | nil => rfl
    | cons k ks =>
      have hk := (le_of_mem_lineFeedEnds (t := t) (k := k) (h ▸ List.mem_cons_self)).1
      exact List.takeWhile_cons_of_neg (by simpa using hk)
  | _, _ + 1, [] => rfl
  | offset, n + 1, c :: t => by
    have ih := takeWhile_lineFeedEnds (offset + 1) n t
    have hsum : offset + 1 + n = offset + (n + 1) := by omega
    rw [hsum] at ih
    simp only [List.take_succ_cons, lineFeedEnds]
    split
    · rw [List.takeWhile_cons_of_pos (by simp), ih]
    · exact ih

theorem takeWhile_lineStarts (source : Text) (offset : Nat) :
    (lineStarts source).takeWhile (· ≤ offset) = lineStarts (source.take offset) := by
  have h := takeWhile_lineFeedEnds 0 offset source
  rw [Nat.zero_add] at h
  rw [lineStarts, List.takeWhile_cons_of_pos (by simp), h, lineStarts]

/-! ### The last of them -/

theorem Text.lastLine_spec (t : Text) : ∃ u, t = u ++ t.lastLine ∧ u.length = t.lastLineBegin ∧
    '\n' ∉ t.lastLine ∧ (u = [] ∨ ∃ v, u = v ++ ['\n']) := by
  refine ⟨(t.reverse.dropWhile (· ≠ '\n')).reverse, ?_, List.length_reverse, ?_, ?_⟩
  · rw [lastLine, ← List.reverse_append, List.takeWhile_append_dropWhile, List.reverse_reverse]
  · intro h
    rw [lastLine, List.mem_reverse] at h
    simpa using List.all_eq_true.mp List.all_takeWhile _ h
  · by_cases hne : t.reverse.dropWhile (· ≠ '\n') = []
    · exact .inl (congrArg List.reverse hne)
    · obtain ⟨c, v, hcv⟩ := List.exists_cons_of_ne_nil hne
      have hc : c = '\n' := by
        have hhead := List.head?_dropWhile_not (· ≠ '\n') t.reverse
        rw [hcv] at hhead
        simpa using hhead
      rw [hcv, hc, List.reverse_cons]
      exact .inr ⟨v.reverse, rfl⟩

theorem lineFeedEnds_of_not_mem : ∀ {t : Text} (offset : Nat), '\n' ∉ t → lineFeedEnds offset t = []
  | [], _, _ => rfl
  | c :: t, offset, h => by
    rw [List.mem_cons, not_or] at h
    rw [lineFeedEnds, if_neg (Ne.symm h.1), lineFeedEnds_of_not_mem _ h.2]

theorem lineStarts_getLastD (t : Text) : (lineStarts t).getLastD 0 = t.lastLineBegin := by
  obtain ⟨u, ht, hlen, hnone, hu⟩ := t.lastLine_spec
  rw [← hlen, lineStarts]
  conv => lhs; rw [ht, lineFeedEnds_append, lineFeedEnds_of_not_mem _ hnone, List.append_nil]
  rcases hu with rfl | ⟨v, rfl⟩
  · rfl
  · rw [lineFeedEnds_append, List.length_append, ← List.cons_append, lineFeedEnds, if_pos rfl,
      List.getLastD_eq_getLast?, List.getLast?_append]
    simp [lineFeedEnds]

/-! ### Lines and columns -/

/-- **The line of an offset** is one more than the line feeds before it. -/
theorem location_line (source : Text) (offset : Nat) :
    (location source offset).line = (source.take offset).count '\n' + 1 := by
  simp only [location, Location.among, takeWhile_lineStarts, lineStarts_length]

/-- **The column of an offset** is one more than its distance from the begin of
its line. -/
theorem location_column (source : Text) (offset : Nat) :
    (location source offset).column = offset - Text.lastLineBegin (source.take offset) + 1 := by
  simp only [location, Location.among, takeWhile_lineStarts, lineStarts_getLastD]

/-- Inside a source the column is one more than the characters of the line
before it. -/
theorem location_column_inside {source : Text} {offset : Nat} (h : offset ≤ source.length) :
    (location source offset).column = (Text.lastLine (source.take offset)).length + 1 := by
  obtain ⟨u, ht, hlen, -, -⟩ := Text.lastLine_spec (source.take offset)
  have hsum := congrArg List.length ht
  rw [List.length_take, List.length_append, Nat.min_eq_left h] at hsum
  rw [location_column, ← hlen]
  omega

/-! ### Texts in a row -/

theorem Text.lastLineBegin_le (t : Text) : t.lastLineBegin ≤ t.length := by
  have hle := (List.dropWhile_sublist (l := t.reverse) (· ≠ '\n')).length_le
  rwa [List.length_reverse] at hle

/-- A text without a line feed is one line. -/
theorem dropWhile_reverse_eq_nil_iff {t : Text} :
    t.reverse.dropWhile (· ≠ '\n') = [] ↔ t.count '\n' = 0 := by
  rw [List.dropWhile_eq_nil_iff, List.count_eq_zero]
  simp only [List.mem_reverse, decide_eq_true_eq]
  exact ⟨fun h hmem => h _ hmem rfl, fun h c hc heq => h (heq ▸ hc)⟩

/-- The last line of two texts in a row begins in the second if that one has a
line feed. -/
theorem Text.lastLineBegin_append (t u : Text) : Text.lastLineBegin (t ++ u) =
    if u.count '\n' = 0 then t.lastLineBegin else t.length + u.lastLineBegin := by
  simp only [lastLineBegin, List.reverse_append, List.dropWhile_append, List.isEmpty_iff,
    dropWhile_reverse_eq_nil_iff]
  by_cases h : u.count '\n' = 0
  · rw [if_pos h, if_pos h]
  · rw [if_neg h, if_neg h, List.length_append, List.length_reverse, Nat.add_comm]

theorem Text.lastLineBegin_eq_zero {t : Text} (h : t.count '\n' = 0) : t.lastLineBegin = 0 := by
  rw [lastLineBegin, dropWhile_reverse_eq_nil_iff.mpr h, List.length_nil]

end ClearSilver
