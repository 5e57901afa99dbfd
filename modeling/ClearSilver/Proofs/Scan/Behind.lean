/-
# A source behind another text

A scanner sees the text that is left to it and no more, so behind another text
it gives the same tokens and the same faults, as many characters further on
(`Scanner.next_behind`).

Key definitions: `Token.behind`, `LexicalFault.behind`, `Scanner.behind`.
Key theorems: `Scanner.next_behind`, `Pulls.behind`.
-/
import ClearSilver.Proofs.Scan.Stream
import ClearSilver.Proofs.Text.Location
import ClearSilver.Tree.Relocate

namespace ClearSilver

/-- The same token so many characters further on. -/
def Token.behind (n : Nat) (tok : Token) : Token := { tok with offset := tok.offset + n }

/-- The same fault so many characters further on. -/
def LexicalFault.behind (n : Nat) (fault : LexicalFault) : LexicalFault :=
  { fault with offset := fault.offset + n }

namespace Scanner

/-- The same scanner with its source behind another text. -/
def behind (before : Text) (s : Scanner) : Scanner :=
  ⟨before ++ s.source, before.length + s.pos, s.mode⟩

theorem rest_behind (before : Text) (s : Scanner) : (s.behind before).rest = s.rest := by
  rw [rest, behind, ← List.drop_drop, List.drop_left]
  rfl

theorem mode_behind (before : Text) (s : Scanner) : (s.behind before).mode = s.mode := rfl

/-- The next step behind another text is the next step. -/
theorem next_behind (before : Text) {s s' : Scanner} {tok : Token} (h : s.next = (.ok tok, s')) :
    (s.behind before).next = (.ok (tok.behind before.length), s'.behind before) := by
  unfold next at h ⊢
  rw [rest_behind, mode_behind]
  cases hs : s.mode.scan s.rest with
  | lexeme skipped kind text =>
    rw [hs] at h
    cases h
    have hoffset : before.length + s.pos + skipped = s.pos + skipped + before.length := by omega
    have hpos : before.length + s.pos + skipped + text.length =
        before.length + (s.pos + skipped + text.length) := by omega
    simp only [behind, Token.behind, hoffset, ← hpos]
  | stuck skipped char =>
    rw [hs] at h
    cases h
  | ended =>
    rw [hs] at h
    cases h
    simp only [behind, Token.behind, Token.atEnd, List.length_append, Nat.add_comm]

/-- A fault behind another text is the fault. -/
theorem next_behind_fault (before : Text) {s s' : Scanner} {fault : LexicalFault}
    (h : s.next = (.error fault, s')) :
    (s.behind before).next = (.error (fault.behind before.length), s'.behind before) := by
  unfold next at h ⊢
  rw [rest_behind, mode_behind]
  cases hs : s.mode.scan s.rest with
  | stuck skipped char =>
    rw [hs] at h
    cases h
    have hoffset : before.length + s.pos + skipped = s.pos + skipped + before.length := by omega
    simp only [behind, LexicalFault.behind, hoffset]
  | lexeme skipped kind text =>
    rw [hs] at h
    cases h
  | ended =>
    rw [hs] at h
    cases h

end Scanner

/-- **The same tokens stand behind another text.** -/
theorem Pulls.behind (before : Text) {s s' : Scanner} {toks : List Token} (h : Pulls s toks s') :
    Pulls (s.behind before) (toks.map (Token.behind before.length)) (s'.behind before) := by
  induction h with
  | none s => exact .none _
  | more hp _ ih => exact .more (Scanner.next_behind before hp) ih

/-! ### Positions -/

theorem Position.of_eq (source : Text) (o : Nat) : Position.of source o =
    ⟨o, ((source.take o).count '\n' + 1 : Nat),
      (o - Text.lastLineBegin (source.take o) + 1 : Nat)⟩ := by
  rw [← location_line, ← location_column]
  rfl

/-- A source begins on the first line, in the first column. -/
theorem Position.of_zero (source : Text) : Position.of source 0 = ⟨0, 1, 1⟩ := by
  rw [Position.of_eq, List.take_zero]
  rfl

/-- **A position behind another text** is moved as the text in front says. -/
theorem Position.of_behind (before source : Text) (o : Nat) :
    Position.of (before ++ source) (o + before.length) = (Position.of source o).behind before := by
  have htake : (before ++ source).take (o + before.length) = before ++ source.take o := by
    rw [Nat.add_comm, List.take_length_add_append]
  have hall : (location before before.length).line = before.count '\n' + 1 := by
    rw [location_line, List.take_length]
  have hlast : (location before before.length).column =
      before.length - before.lastLineBegin + 1 := by
    rw [location_column, List.take_length]
  have hle := before.lastLineBegin_le
  rw [Position.of_eq, Position.of_eq, htake, List.count_append, Text.lastLineBegin_append,
    Position.behind, hall, hlast, Position.mk.injEq]
  refine ⟨by push_cast; rfl, by push_cast; omega, ?_⟩
  by_cases h : (source.take o).count '\n' = 0
  · rw [if_pos h, h, Text.lastLineBegin_eq_zero h, if_pos (by simp)]
    push_cast
    omega
  · rw [if_neg h, if_neg (by push_cast; omega), Nat.add_comm o, Nat.add_sub_add_left]

/-- A position of a text is its position in a longer one. -/
theorem Position.of_append (before source : Text) {o : Nat} (ho : o ≤ before.length) :
    Position.of (before ++ source) o = Position.of before o := by
  have htake : (before ++ source).take o = before.take o := List.take_append_of_le_length ho
  rw [Position.of_eq, Position.of_eq, htake]

end ClearSilver
