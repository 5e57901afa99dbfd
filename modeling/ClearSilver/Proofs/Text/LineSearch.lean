/-
# The line of an offset by binary search

The table of the line starts of a source increases (`pairwise_lineStarts`), so it
can be cut at an offset: up to the cut its entries are at most the offset, behind
it they are greater (`CutsAt`). There is one such cut, binary search finds it
(`cutsAt_bisect`), and it is the line of the offset (`cutsAt_line`). What was
counted says the rest: a later offset has a later line, or a later column of the
same line (`location_before`), so locations tell offsets apart.

Key definitions: `CutsWithin`, `CutsAt`, `bisect`, `Location.Before`.
Key theorems: `CutsAt.unique`, `cutsAt_bisect`, `cutsAt_line`, `location_before`,
`location_exact`.
-/
import ClearSilver.Proofs.Text.Location

namespace ClearSilver

variable {table : List Nat} {x i j low high : Nat} {source : Text} {offset later : Nat}

/-! ### Cutting a table -/

/-- Are the entries in front of the first index at most `x`, and those from the
second one on greater? -/
structure CutsWithin (table : List Nat) (x low high : Nat) : Prop where
  le : low ≤ high
  le_length : high ≤ table.length
  before : ∀ j k, table[j]? = some k → j < low → k ≤ x
  behind : ∀ j k, table[j]? = some k → high ≤ j → x < k

/-- Does the table fall in two at this index: entries that are at most `x`, and
entries that are greater? -/
abbrev CutsAt (table : List Nat) (x i : Nat) : Prop := CutsWithin table x i i

/-- A table is cut at one place. -/
theorem CutsAt.unique (h : CutsAt table x i) (h' : CutsAt table x j) : i = j := by
  have hle : ∀ {i j : Nat}, CutsAt table x i → CutsAt table x j → i ≤ j := by
    intro i j h h'
    by_contra hlt
    have hj : j < table.length := by
      have := h.le_length
      omega
    have hat := List.getElem?_eq_getElem hj
    have hsmall := h.before j _ hat (by omega)
    have hgreat := h'.behind j _ hat (Nat.le_refl j)
    omega
  exact Nat.le_antisymm (hle h h') (hle h' h)

/-- The entries at the front of an increasing table that are at most `x` are all
that are. -/
theorem cutsAt_takeWhile : ∀ {table : List Nat}, table.Pairwise (· < ·) →
    CutsAt table x (table.takeWhile (· ≤ x)).length
  | [], _ => ⟨Nat.le_refl _, Nat.le_refl _, by simp, by simp⟩
  | k :: table, h => by
    obtain ⟨hk, htable⟩ := List.pairwise_cons.mp h
    have ih := cutsAt_takeWhile htable
    by_cases hle : k ≤ x
    · rw [List.takeWhile_cons_of_pos (by simpa using hle), List.length_cons]
      refine ⟨Nat.le_refl _, Nat.succ_le_succ ih.le_length, ?_, ?_⟩
      · rintro (_ | j) k' hat hlt
        · rw [List.getElem?_cons_zero] at hat
          cases hat
          exact hle
        · rw [List.getElem?_cons_succ] at hat
          exact ih.before j k' hat (by omega)
      · rintro (_ | j) k' hat hge
        · omega
        · rw [List.getElem?_cons_succ] at hat
          exact ih.behind j k' hat (by omega)
    · rw [List.takeWhile_cons_of_neg (by simpa using hle), List.length_nil]
      refine ⟨Nat.le_refl _, Nat.zero_le _, fun j k' _ hlt => absurd hlt (Nat.not_lt_zero j), ?_⟩
      intro j k' hat _
      rcases List.mem_cons.mp (List.mem_of_getElem? hat) with rfl | hmem
      · omega
      · have := hk k' hmem
        omega

/-! ### Binary search -/

/-- The cut of a table between two indices: the half that holds it is searched
until nothing is left between them. -/
def bisectBetween (table : List Nat) (x low high : Nat) (hhigh : high ≤ table.length) : Nat :=
  if h : low < high then
    have hmiddle : (low + high) / 2 < table.length := by omega
    if x < table[(low + high) / 2] then
      bisectBetween table x low ((low + high) / 2) (by omega)
    else bisectBetween table x ((low + high) / 2 + 1) high hhigh
  else low
termination_by high - low

/-- Where binary search cuts a table. -/
def bisect (table : List Nat) (x : Nat) : Nat :=
  bisectBetween table x 0 table.length (Nat.le_refl _)

/-- An increasing table has smaller entries before a place, and greater ones behind. -/
theorem getElem_le_of_pairwise (h : table.Pairwise (· < ·)) {k : Nat} (hj : j < table.length)
    (hat : table[i]? = some k) (hle : i ≤ j) : k ≤ table[j] := by
  obtain ⟨hi, rfl⟩ := List.getElem?_eq_some_iff.mp hat
  rcases Nat.lt_or_eq_of_le hle with hlt | rfl
  · exact Nat.le_of_lt (List.pairwise_iff_getElem.mp h i j hi hj hlt)
  · exact Nat.le_refl _

/-- **The search keeps the cut between its indices**, and ends at it. -/
theorem cutsAt_bisectBetween (htable : table.Pairwise (· < ·)) (hhigh : high ≤ table.length)
    (h : CutsWithin table x low high) : CutsAt table x (bisectBetween table x low high hhigh) := by
  fun_induction bisectBetween table x low high hhigh with
  | case1 low high hhigh hlt hmiddle hx ih =>
    refine ih ⟨by omega, by omega, h.before, fun j k hat hge => ?_⟩
    obtain ⟨hj, rfl⟩ := List.getElem?_eq_some_iff.mp hat
    have hle := getElem_le_of_pairwise htable hj (List.getElem?_eq_getElem hmiddle) hge
    omega
  | case2 low high hhigh hlt hmiddle hx ih =>
    refine ih ⟨by omega, hhigh, fun j k hat hbefore => ?_, h.behind⟩
    have hle := getElem_le_of_pairwise htable hmiddle hat (by omega)
    omega
  | case3 low high hhigh hlt =>
    obtain rfl : low = high := Nat.le_antisymm h.le (Nat.le_of_not_lt hlt)
    exact h

/-- **Binary search cuts an increasing table.** -/
theorem cutsAt_bisect (htable : table.Pairwise (· < ·)) (x : Nat) :
    CutsAt table x (bisect table x) := by
  refine cutsAt_bisectBetween htable _ ⟨Nat.zero_le _, Nat.le_refl _, ?_, ?_⟩
  · exact fun j _ _ hlt => absurd hlt (Nat.not_lt_zero j)
  · intro j k hat hge
    have hj := (List.getElem?_eq_some_iff.mp hat).1
    omega

/-! ### The lines of a source -/

theorem pairwise_lineFeedEnds : ∀ (offset : Nat) (t : Text),
    (lineFeedEnds offset t).Pairwise (· < ·)
  | _, [] => .nil
  | offset, c :: t => by
    have ih := pairwise_lineFeedEnds (offset + 1) t
    rw [lineFeedEnds]
    by_cases hc : c = '\n'
    · rw [if_pos hc]
      exact List.pairwise_cons.mpr ⟨fun k hk => (le_of_mem_lineFeedEnds hk).1, ih⟩
    · rw [if_neg hc]
      exact ih

/-- The table of the line starts increases. -/
theorem pairwise_lineStarts (source : Text) : (lineStarts source).Pairwise (· < ·) :=
  List.pairwise_cons.mpr
    ⟨fun _ hk => (le_of_mem_lineFeedEnds hk).1, pairwise_lineFeedEnds 0 source⟩

/-- **The line of an offset** is where the table of the line starts is cut. -/
theorem cutsAt_line (source : Text) (offset : Nat) :
    CutsAt (lineStarts source) offset (location source offset).line :=
  cutsAt_takeWhile (pairwise_lineStarts source)

/-! ### The order of locations -/

/-- Does a location come before another one, on an earlier line or in an earlier
column of its line? -/
def Location.Before (l l' : Location) : Prop :=
  l.line < l'.line ∨ l.line = l'.line ∧ l.column < l'.column

theorem Location.Before.ne {l l' : Location} (h : l.Before l') : l ≠ l' := by
  rintro rfl
  rcases h with h | ⟨-, h⟩ <;> omega

/-- **A later offset has a later location.** -/
theorem location_before (source : Text) (h : offset < later) :
    (location source offset).Before (location source later) := by
  obtain ⟨more, hmore⟩ : source.take offset <+: source.take later :=
    List.take_prefix_take_left (Nat.le_of_lt h)
  have hbegin : Text.lastLineBegin (source.take offset) ≤ offset :=
    Nat.le_trans (Text.lastLineBegin_le _) (List.length_take_le _ _)
  rw [Location.Before, location_line, location_line, location_column, location_column, ← hmore,
    List.count_append, Text.lastLineBegin_append]
  by_cases hfeeds : more.count '\n' = 0
  · -- on one line the columns count on from where it begins
    rw [if_pos hfeeds]
    exact .inr ⟨by omega, by omega⟩
  · exact .inl (by omega)

/-- **A location is exact, and locations are in the order of the offsets.** The
line counts the line feeds in front of the offset, the column counts on from just
behind the last of them. Binary search in the table of the line starts finds that
line, which is one of the source; a later offset has a later location, and other
offsets have other locations. -/
theorem location_exact (source : Text) (offset : Nat) :
    location source offset = ⟨1 + (source.take offset).count '\n',
        offset - Text.lastLineBegin (source.take offset) + 1⟩ ∧
      bisect (lineStarts source) offset = (location source offset).line ∧
      (location source offset).line ≤ 1 + source.count '\n' ∧
      (∀ later, offset < later → (location source offset).Before (location source later)) ∧
      ∀ other, other ≠ offset → location source other ≠ location source offset := by
  have hline := location_line source offset
  refine ⟨?_, ?_, ?_, fun _ h => location_before source h, fun other hne => ?_⟩
  · rw [← location_column, Nat.add_comm, ← hline]
  · exact (cutsAt_bisect (pairwise_lineStarts source) offset).unique (cutsAt_line source offset)
  · have hcount := (List.take_sublist offset source).count_le '\n'
    omega
  · rcases Nat.lt_or_gt_of_ne hne with h | h
    · exact (location_before source h).ne
    · exact (location_before source h).ne.symm

end ClearSilver
