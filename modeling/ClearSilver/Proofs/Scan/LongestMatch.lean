/-
# A scan finds the longest match

Inside a tag a scan gives the longest text of a pattern that stands at the head
of what is left, whatever the order in which it looks for them. A lexeme that
does not end where the text goes on is the beginning of a longer one
(`Mode.Grows`), so from any match there is a way to one that ends, and that is
the one found (`Mode.Finds.exists_of_isLexeme`). Nothing is found only where no
pattern matches.

Key definitions: `Pattern.Matches`, `Pattern.IsLongest`, `Mode.Grows`, `Mode.Finds`,
`Scanner.Munches`.
Key theorems: `Mode.grows_command`, `Mode.grows_arguments`, `Mode.Finds.lexeme_iff`,
`next_munches`.
-/
import ClearSilver.Proofs.Scan.Patterns
import ClearSilver.Proofs.Scan.Splice

namespace ClearSilver

/-! ### Matches -/

/-- Does the text begin with `x`, a text of a pattern of this kind? -/
def Pattern.Matches (ps : List Pattern) (t : Text) (k : Token.Kind) (x : Text) : Prop :=
  x <+: t ∧ IsAmong ps k x

/-- Is this the longest match, all others being shorter? -/
structure Pattern.IsLongest (ps : List Pattern) (t : Text) (k : Token.Kind) (x : Text) : Prop where
  isMatch : Matches ps t k x
  longest : ∀ k' y, Matches ps t k' y → y.length < x.length ∨ k' = k ∧ y = x

theorem Text.not_stops {p : Char → Bool} {r : Text} (h : ¬ r.Stops p) :
    ∃ c r', r = c :: r' ∧ p c = true := by
  cases r with
  | nil => exact absurd trivial h
  | cons c r => exact ⟨c, r, rfl, by simpa [Stops] using h⟩

namespace Mode

variable {mode : Mode} {k k' : Token.Kind} {x r t : Text} {n : Nat} {found : Scan}

/-! ### Lexemes that go on -/

/-- Is a lexeme that does not end where the text goes on the beginning of a
longer one? -/
def Grows (mode : Mode) : Prop :=
  ∀ k x r, mode.IsLexeme k x → ¬ mode.Ends k x r →
    ∃ k' y r', y ≠ [] ∧ r = y ++ r' ∧ mode.IsLexeme k' (x ++ y)

theorem isLexeme_commandWordKind (hx : IsCommandWord x) :
    command.IsLexeme (commandWordKind x) x := by
  unfold commandWordKind
  split
  · exact ⟨hx, ‹_›⟩
  · exact ⟨hx, ‹_›⟩

/-- A word in command position goes on with any character of a word. -/
theorem grows_commandWord (hx : IsCommandWord x)
    (hr : ¬ r.Stops fun c => isWordChar c || c = '-') :
    ∃ k' y r', y ≠ [] ∧ r = y ++ r' ∧ command.IsLexeme k' (x ++ y) := by
  obtain ⟨c, r, rfl, hc⟩ := Text.not_stops hr
  cases x with
  | nil => exact hx.elim
  | cons d x =>
    have hlonger : IsCommandWord (d :: (x ++ [c])) :=
      ⟨hx.1, by rw [List.all_append, hx.2]; simpa using hc⟩
    exact ⟨_, [c], r, by simp, rfl, isLexeme_commandWordKind hlonger⟩

/-- Blanks go on with a blank, or with the mark behind them. -/
theorem grows_blanks (hne : x ≠ []) (hx : x.all isBlank = true)
    (hr : ¬ (r.Stops isBlank ∧ r.Stops (fun c => c = ':' || c = '!') ∧ closesTag r = false)) :
    ∃ k' y r', y ≠ [] ∧ r = y ++ r' ∧ command.IsLexeme k' (x ++ y) := by
  by_cases hblank : r.Stops isBlank
  · by_cases hmark : r.Stops fun c => c = ':' || c = '!'
    · have hclose : closesTag r = true := by
        cases hc : closesTag r with
        | false => exact absurd ⟨hblank, hmark, hc⟩ hr
        | true => rfl
      obtain ⟨r, rfl⟩ := closesTag_eq_true.mp hclose
      exact ⟨.tagClose, "?>", r, by simp, rfl, x, hx, rfl⟩
    · obtain ⟨c, r, rfl, hc⟩ := Text.not_stops hmark
      rw [Bool.or_eq_true, decide_eq_true_eq, decide_eq_true_eq] at hc
      rcases hc with rfl | rfl
      · exact ⟨.softDelimiter, ":", r, by simp, rfl, .inl ⟨x, [], hx, rfl, rfl⟩⟩
      · exact ⟨.hardDelimiter, "!", r, by simp, rfl, x, [], hx, rfl, rfl⟩
  · obtain ⟨c, r, rfl, hc⟩ := Text.not_stops hblank
    refine ⟨.softDelimiter, [c], r, by simp, rfl, .inr ⟨by simp [hne], ?_⟩⟩
    rw [List.all_append, hx]
    simpa using hc

/-- In command position a lexeme that does not end begins a longer one. -/
theorem grows_command : command.Grows := by
  intro k x r hx hr
  cases k <;> simp only [IsLexeme, Ends, not_true] at hx hr
  case keyword k => exact grows_commandWord hx.1 hr
  case word => exact grows_commandWord hx.1 hr
  case hardDelimiter =>
    obtain ⟨b, b', hb, hb', rfl⟩ := hx
    obtain ⟨c, r, rfl, hc⟩ := Text.not_stops hr
    refine ⟨.hardDelimiter, [c], r, by simp, rfl, b, b' ++ [c], hb, ?_, by simp⟩
    rw [List.all_append, hb']
    simpa using hc
  case softDelimiter =>
    rcases hx with ⟨b, b', hb, hb', rfl⟩ | ⟨hne, hx⟩
    · have hcolon : ¬ (b ++ ':' :: b').all isBlank = true := by simp [isBlank]
      have hblank : ¬ r.Stops isBlank := fun h => hr ⟨h, fun hall => absurd hall hcolon⟩
      obtain ⟨c, r, rfl, hc⟩ := Text.not_stops hblank
      refine ⟨.softDelimiter, [c], r, by simp, rfl, .inl ⟨b, b' ++ [c], hb, ?_, by simp⟩⟩
      rw [List.all_append, hb']
      simpa using hc
    · exact grows_blanks hne hx fun h => hr ⟨h.1, fun _ => h.2⟩

/-- A word among the arguments goes on with any character of a word. -/
theorem grows_argumentWord (hx : IsArgumentWord x) (hr : ¬ r.Stops isWordChar) :
    ∃ k' y r', y ≠ [] ∧ r = y ++ r' ∧ arguments.IsLexeme k' (x ++ y) := by
  obtain ⟨c, r, rfl, hc⟩ := Text.not_stops hr
  have hlonger : IsArgumentWord (x ++ [c]) :=
    ⟨by simp [hx.1], by rw [List.all_append, hx.2]; simpa using hc⟩
  exact ⟨_, [c], r, by simp, rfl, (stands_wordKind (r := []) hlonger trivial).1⟩

/-- Among the arguments a lexeme that does not end begins a longer one. -/
theorem grows_arguments : arguments.Grows := by
  intro k x r hx hr
  cases k <;> simp only [IsLexeme, Ends, not_true] at hx hr
  case decimal => exact grows_argumentWord (isArgumentWord_of_isDecimalWord hx) hr
  case hex => exact grows_argumentWord (isArgumentWord_of_isHexWord hx).1 hr
  case word => exact grows_argumentWord (isPlainWord_iff.mp hx).1 hr
  case symbol s =>
    obtain ⟨c, r, rfl, hc⟩ := Text.not_stops hr
    subst hx
    cases s <;> simp only [Symbol.grows, decide_eq_true_eq, Bool.false_eq_true] at hc
    case bang => exact ⟨.symbol .ne, [c], r, by simp, rfl, by rw [← hc]; rfl⟩
    case assign => exact ⟨.symbol .eq, [c], r, by simp, rfl, by rw [← hc]; rfl⟩
    case lt => exact ⟨.symbol .le, [c], r, by simp, rfl, by rw [← hc]; rfl⟩
    case gt => exact ⟨.symbol .ge, [c], r, by simp, rfl, by rw [← hc]; rfl⟩
    case question => exact ⟨.tagClose, [c], r, by simp, rfl, by rw [← hc]; rfl⟩

/-- A text is a lexeme of one kind. -/
theorem IsLexeme.kind_eq (h : mode.IsLexeme k x) (h' : mode.IsLexeme k' x) : k = k' := by
  have hscan := scan_of_stands (mode.skips_nil) h (mode.ends_nil k x)
  rw [scan_of_stands (mode.skips_nil) h' (mode.ends_nil k' x)] at hscan
  cases hscan
  rfl

theorem IsLexeme.pos (h : mode.IsLexeme k x) : x ≠ [] := (h.ne_nil (mode.ends_nil k x)).1

/-! ### What is found -/

/-- Is this what a scan finds that has passed over `n` characters: a lexeme that
stands here, if there is one? -/
structure Finds (mode : Mode) (n : Nat) (t : Text) (found : Scan) : Prop where
  of_stands : ∀ {k x r}, t = x ++ r → mode.IsLexeme k x → mode.Ends k x r → found = .lexeme n k x
  cases : (∃ k x, found = .lexeme n k x ∧ x <+: t ∧ mode.IsLexeme k x) ∨
    (∃ c, found = .stuck n c ∧ t.head? = some c) ∨ found = .ended ∧ t = []

theorem finds_command (t : Text) : command.Finds 0 t (scanCommand t) where
  of_stands := fun ht hx hr => ht ▸ scanCommand_of_stands hx hr
  cases := by
    rcases scanCommand_cases t with ⟨k, x, h⟩ | ⟨c, r, rfl, h⟩ | ⟨rfl, h⟩
    · obtain ⟨b, r, rfl, -, hb, hx, -⟩ := stands_of_scanCommand h
      obtain rfl : b = [] := hb.2 (by simp)
      exact .inl ⟨k, x, h, List.prefix_append x r, hx⟩
    · exact .inr (.inl ⟨c, h, rfl⟩)
    · exact .inr (.inr ⟨h, rfl⟩)

theorem finds_arguments (n : Nat) (t : Text) : arguments.Finds n t (scanArgument n t) where
  of_stands := fun ht hx hr => ht ▸ scanArgument_of_stands hx hr
  cases := by
    cases h : scanArgument n t with
    | lexeme m k x =>
      obtain ⟨rfl, r, rfl, hx, -⟩ := stands_of_scanArgument h
      exact .inl ⟨k, x, rfl, List.prefix_append x r, hx⟩
    | stuck m c =>
      obtain ⟨rfl, r, rfl⟩ := stuck_of_scanArgument h
      exact .inr (.inl ⟨c, rfl, rfl⟩)
    | ended => exact .inr (.inr ⟨rfl, ended_of_scanArgument h⟩)

namespace Finds

variable (hf : mode.Finds n t found) (hg : mode.Grows)
include hf

theorem ended_iff : found = .ended ↔ t = [] := by
  rcases hf.cases with ⟨k, x, rfl, hpre, hx⟩ | ⟨c, rfl, hc⟩ | ⟨rfl, rfl⟩
  · refine iff_of_false (by simp) ?_
    rintro rfl
    exact hx.pos (List.prefix_nil.mp hpre)
  · refine iff_of_false (by simp) ?_
    rintro rfl
    cases hc
  · exact iff_of_true rfl rfl

section

include hg

/-- **Where a lexeme stands, one at least as long is found.** -/
theorem exists_of_isLexeme (ht : t = x ++ r) (hx : mode.IsLexeme k x) :
    ∃ k' y, found = .lexeme n k' y ∧ x.length ≤ y.length := by
  induction hlen : r.length using Nat.strong_induction_on generalizing k x r with
  | _ m ih =>
    by_cases hr : mode.Ends k x r
    · exact ⟨k, x, hf.of_stands ht hx hr, Nat.le_refl _⟩
    · obtain ⟨k', y, r', hne, rfl, hxy⟩ := hg k x r hx hr
      have hpos := List.length_pos_iff.mpr hne
      rw [List.length_append] at hlen
      obtain ⟨k'', z, hfound, hle⟩ :=
        ih r'.length (by omega) (ht.trans (List.append_assoc x y r').symm) hxy rfl
      rw [List.length_append] at hle
      exact ⟨k'', z, hfound, by omega⟩

end

variable {ps : List Pattern} (hps : ∀ k x, Pattern.IsAmong ps k x ↔ mode.IsLexeme k x)
include hps

theorem matches_of_lexeme (h : found = .lexeme n k x) : Pattern.Matches ps t k x := by
  rcases hf.cases with ⟨k', x', h', hpre, hx⟩ | ⟨c, h', -⟩ | ⟨h', -⟩
  · cases h.symm.trans h'
    exact ⟨hpre, (hps k x).mpr hx⟩
  · cases h.symm.trans h'
  · cases h.symm.trans h'

include hg

theorem exists_of_matches (h : Pattern.Matches ps t k x) :
    ∃ k' y, found = .lexeme n k' y ∧ x.length ≤ y.length := by
  obtain ⟨⟨r, hr⟩, hx⟩ := h
  exact hf.exists_of_isLexeme hg hr.symm ((hps k x).mp hx)

/-- **A lexeme is found where it is the longest match.** -/
theorem lexeme_iff (k : Token.Kind) (x : Text) :
    found = .lexeme n k x ↔ Pattern.IsLongest ps t k x := by
  constructor
  · intro h
    have hmatch := hf.matches_of_lexeme hps h
    refine ⟨hmatch, fun k' y hy => ?_⟩
    obtain ⟨k'', z, h', hle⟩ := hf.exists_of_matches hg hps hy
    obtain ⟨-, rfl, rfl⟩ := Scan.lexeme.inj (h.symm.trans h')
    rcases Nat.lt_or_eq_of_le hle with hlt | heq
    · exact .inl hlt
    · obtain rfl : y = x :=
        (List.prefix_of_prefix_length_le hy.1 hmatch.1 hle).eq_of_length heq
      exact .inr ⟨((hps k' y).mp hy.2).kind_eq ((hps k y).mp hmatch.2), rfl⟩
  · intro h
    obtain ⟨k', y, hfound, hle⟩ := hf.exists_of_matches hg hps h.isMatch
    rcases h.longest k' y (hf.matches_of_lexeme hps hfound) with hlt | ⟨rfl, rfl⟩
    · omega
    · exact hfound

/-- **A scan is stuck where characters are left and no pattern matches.** -/
theorem stuck_iff (c : Char) : found = .stuck n c ↔
    t.head? = some c ∧ ∀ k x, ¬ Pattern.Matches ps t k x := by
  constructor
  · rintro rfl
    refine ⟨?_, fun k x hx => ?_⟩
    · rcases hf.cases with ⟨k, x, h, -⟩ | ⟨d, h, hd⟩ | ⟨h, -⟩
      · cases h
      · cases h
        exact hd
      · cases h
    · obtain ⟨k', y, h, -⟩ := hf.exists_of_matches hg hps hx
      cases h
  · rintro ⟨hc, hnone⟩
    rcases hf.cases with ⟨k, x, h, -⟩ | ⟨d, h, hd⟩ | ⟨-, rfl⟩
    · exact absurd (hf.matches_of_lexeme hps h) (hnone k x)
    · rwa [Option.some.inj (hc.symm.trans hd)]
    · cases hc

end Finds
end Mode

/-! ### The scanner inside a tag -/

/-- Does the scanner give the longest match of the patterns at the head of
`left`, behind the characters of `before`, the end where nothing is left, and
a fault where no pattern matches? -/
structure Scanner.Munches (ps : List Pattern) (s : Scanner) (before left : Text) : Prop where
  split : s.rest = before ++ left
  token_iff : ∀ tok, tok.kind ≠ .eof → (s.next.1 = .ok tok ↔
    Pattern.IsLongest ps left tok.kind tok.text ∧ tok.offset = s.pos + before.length)
  end_iff : (∃ tok, s.next.1 = .ok tok ∧ tok.kind = .eof) ↔ left = []
  fault_iff : ∀ fault, s.next.1 = .error fault ↔
    (left.head? = some fault.char ∧ ∀ k x, ¬ Pattern.Matches ps left k x) ∧
      fault.mode = s.mode ∧ fault.offset = s.pos + before.length

/-- What a scanner gives for what its scan finds. -/
theorem Scanner.next_fst (s : Scanner) : s.next.1 =
    match s.mode.scan s.rest with
    | .lexeme skipped kind text => .ok ⟨kind, text, s.pos + skipped⟩
    | .stuck skipped char => .error ⟨s.mode, char, s.pos + skipped⟩
    | .ended => .ok (Token.atEnd s.source.length) := by
  unfold next
  cases s.mode.scan s.rest <;> rfl

/-- A scanner gives the longest match where its scan finds the lexemes. -/
theorem Mode.Finds.munches {ps : List Pattern} {s : Scanner} {before left : Text}
    (hsplit : s.rest = before ++ left)
    (hf : s.mode.Finds before.length left (s.mode.scan s.rest)) (hg : s.mode.Grows)
    (hps : ∀ k x, Pattern.IsAmong ps k x ↔ s.mode.IsLexeme k x) :
    s.Munches ps before left where
  split := hsplit
  token_iff := by
    rintro ⟨k, x, offset⟩ hk
    rw [← hf.lexeme_iff hg hps, Scanner.next_fst]
    rcases hf.cases with ⟨k', x', h, -⟩ | ⟨c, h, -⟩ | ⟨h, -⟩
    · rw [h]
      simp only [Except.ok.injEq, Token.mk.injEq, Scan.lexeme.injEq, true_and, and_assoc, eq_comm]
    · simp [h]
    · rw [h]
      refine iff_of_false (fun h => ?_) (by simp)
      exact hk (congrArg Token.kind (Except.ok.inj h)).symm
  end_iff := by
    rw [← hf.ended_iff, Scanner.next_fst]
    rcases hf.cases with ⟨k, x, h, -, hx⟩ | ⟨c, h, -⟩ | ⟨h, -⟩
    · rw [h]
      refine iff_of_false ?_ (by simp)
      rintro ⟨tok, htok, hk⟩
      obtain rfl := Except.ok.inj htok
      exact (hx.ne_nil (Mode.ends_nil _ k x)).2 hk
    · simp [h]
    · rw [h]
      exact iff_of_true ⟨_, rfl, rfl⟩ rfl
  fault_iff := by
    rintro ⟨mode, c, offset⟩
    rw [← hf.stuck_iff hg hps, Scanner.next_fst]
    rcases hf.cases with ⟨k, x, h, -⟩ | ⟨d, h, -⟩ | ⟨h, -⟩
    · simp [h]
    · rw [h]
      simp only [Except.error.injEq, LexicalFault.mk.injEq, Scan.stuck.injEq, true_and]
      grind
    · simp [h]

/-- **Inside a tag the scanner gives the longest match.** In command position
it is the longest one at the head of what is left, among the arguments the
longest behind the blanks; the end is given where nothing is left there, and a
fault where something is left and no pattern matches. -/
theorem next_munches (source : Text) (pos : Nat) :
    (⟨source, pos, .command⟩ : Scanner).Munches commandPatterns [] (source.drop pos) ∧
      (⟨source, pos, .arguments⟩ : Scanner).Munches argumentPatterns
        ((source.drop pos).takeWhile isBlank) ((source.drop pos).dropWhile isBlank) := by
  constructor
  · exact (Mode.finds_command _).munches rfl Mode.grows_command fun _ _ => mem_commandPatterns
  · exact (Mode.finds_arguments _ _).munches List.takeWhile_append_dropWhile.symm
      Mode.grows_arguments fun _ _ => mem_argumentPatterns

end ClearSilver
