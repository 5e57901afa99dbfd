/-
# What a lexeme is and where it ends

Each mode has its kinds of lexemes (`Mode.IsLexeme`), and a lexeme ends where
the text goes on with something it cannot take in (`Mode.Ends`). What a mode
finds at the head of a text is such a lexeme behind some blanks, ended by what
follows it (`Mode.stands_of_scan`), and any such lexeme is found
(`Mode.scan_of_stands`). Only among the arguments are blanks passed over; in
command position they belong to the mark beside them.

Key definitions: `Mode.IsLexeme`, `Mode.Ends`, `Mode.Skips`, `Mode.Stands`.
Key theorems: `Mode.scan_of_stands`, `Mode.stands_of_scan`, `Mode.stuck_of_scan`,
`Mode.ended_of_scan`.
-/
import ClearSilver.Proofs.Scan.Run

namespace ClearSilver

/-- A keyword is spelled in one of its ways. -/
theorem Keyword.mem_spellings {t : Text} {k : Keyword} (h : ofText? t = some k) :
    (t, k) ∈ spellings := by
  obtain ⟨p, hp, rfl⟩ := Option.map_eq_some_iff.mp h
  have ht : p.1 = t := by simpa using List.find?_some hp
  rw [← ht]
  exact List.mem_of_find?_eq_some hp

namespace Mode

/-- Is the text a lexeme of this kind in the mode? -/
def IsLexeme (mode : Mode) (k : Token.Kind) (x : Text) : Prop :=
  match mode, k with
  | .content, .tagOpen => ∃ b : Text, b ≠ [] ∧ b.all isBlank = true ∧ x = "<?cs" ++ b
  | .content, .data => x ≠ [] ∧ x.occurs opensTag = false
  | .command, .tagClose => ∃ b : Text, b.all isBlank = true ∧ x = b ++ "?>"
  | .command, .softDelimiter =>
    (∃ b b' : Text, b.all isBlank = true ∧ b'.all isBlank = true ∧ x = b ++ ':' :: b') ∨
      x ≠ [] ∧ x.all isBlank = true
  | .command, .hardDelimiter =>
    ∃ b b' : Text, b.all isBlank = true ∧ b'.all isBlank = true ∧ x = b ++ '!' :: b'
  | .command, .commentStart => x = "#"
  | .command, .symbol s => s = .slash ∧ x = s.text
  | .command, .keyword k => IsCommandWord x ∧ Keyword.ofText? x = some k
  | .command, .word => IsCommandWord x ∧ Keyword.ofText? x = none
  | .arguments, .tagClose => x = "?>"
  | .arguments, .string => ∃ (q : Char) (w : Text), (q = '"' ∨ q = '\'') ∧ q ∉ w ∧ x = q :: w ++ [q]
  | .arguments, .decimal => isDecimalWord x = true
  | .arguments, .hex => isHexWord x = true
  | .arguments, .word => isPlainWord x = true
  | .arguments, .symbol s => x = s.text
  | .comment, .tagClose => x = "?>"
  | .comment, .comment => x ≠ [] ∧ x.occurs closesTag = false
  | _, _ => False

/-- Does a lexeme of this kind end where the text goes on with `r`? -/
def Ends (mode : Mode) (k : Token.Kind) (x r : Text) : Prop :=
  match mode, k with
  | .content, .tagOpen | .command, .hardDelimiter => r.Stops isBlank
  | .content, .data => r = [] ∨ opensTag r = true
  | .command, .softDelimiter =>
    r.Stops isBlank ∧ (x.all isBlank = true → r.Stops (fun c => c = ':' || c = '!') ∧
      closesTag r = false)
  | .command, .keyword _ | .command, .word => r.Stops fun c => isWordChar c || c = '-'
  | .arguments, .decimal | .arguments, .hex | .arguments, .word => r.Stops isWordChar
  | .arguments, .symbol s => r.Stops s.grows
  | .comment, .comment => r = [] ∨ closesTag r = true
  | _, _ => True

/-- The blanks that a mode passes over. -/
def Skips (mode : Mode) (b : Text) : Prop := b.all isBlank = true ∧ (mode ≠ .arguments → b = [])

/-- Literal text and the marks that open tags are lexemes of content alone. -/
theorem IsLexeme.mode_eq_content {mode : Mode} {k : Token.Kind} {x : Text}
    (hx : mode.IsLexeme k x) (hk : k = .data ∨ k = .tagOpen) : mode = .content := by
  rcases hk with rfl | rfl <;> cases mode <;> first | rfl | exact hx.elim

/-! ### Lexemes that stand are found -/

theorem scanContent_of_stands {k : Token.Kind} {x r : Text} (hx : content.IsLexeme k x)
    (hr : content.Ends k x r) : scanContent (x ++ r) = .lexeme 0 k x := by
  cases k <;> simp only [IsLexeme, Ends] at hx hr
  case data =>
    obtain ⟨hne, hx⟩ := hx
    have hnone := Text.append_of_occurs opensTag_append hx hr
    cases x with
    | nil => exact absurd rfl hne
    | cons c x =>
      have hc := hnone [] (c :: x) rfl (by simp)
      have hu := Text.upTo_eq (fun u v h hv => hnone (c :: u) v (congrArg (c :: ·) h) hv) hr
      rw [List.cons_append] at hc ⊢
      rw [scanContent, if_neg (by simp [hc]), hu]
  case tagOpen =>
    obtain ⟨b, hne, hb, rfl⟩ := hx
    have ho : opensTag ("<?cs".toList ++ b ++ r) = true := by
      cases b with
      | nil => exact absurd rfl hne
      | cons c b =>
        rw [List.all_cons, Bool.and_eq_true] at hb
        exact opensTag_eq_true.mpr ⟨c, b ++ r, hb.1, rfl⟩
    have ht := Text.takeWhile_run hb hr
    change scanContent ('<' :: ("?cs".toList ++ b ++ r)) = _
    rw [scanContent]
    change (if opensTag ("<?cs".toList ++ b ++ r) = true then
      Scan.lexeme 0 .tagOpen ("<?cs".toList ++ (b ++ r).takeWhile isBlank) else _) = _
    rw [if_pos ho, ht]

theorem scanComment_of_stands {k : Token.Kind} {x r : Text} (hx : comment.IsLexeme k x)
    (hr : comment.Ends k x r) : scanComment (x ++ r) = .lexeme 0 k x := by
  cases k <;> simp only [IsLexeme, Ends] at hx hr
  case tagClose =>
    subst hx
    rfl
  case comment =>
    obtain ⟨hne, hx⟩ := hx
    have hnone := Text.append_of_occurs closesTag_append hx hr
    cases x with
    | nil => exact absurd rfl hne
    | cons c x =>
      have hc := hnone [] (c :: x) rfl (by simp)
      have hu := Text.upTo_eq (fun u v h hv => hnone (c :: u) v (congrArg (c :: ·) h) hv) hr
      rw [List.cons_append] at hc ⊢
      rw [scanComment, if_neg (by simp [hc]), hu]

/-- A character that is a letter is none that is not. -/
theorem ne_of_isLetter {c d : Char} (hc : isLetter c = true) (hd : isLetter d = false) : c ≠ d := by
  rintro rfl
  rw [hc] at hd
  exact Bool.noConfusion hd

theorem closesTag_cons_of_ne {c : Char} (r : Text) (h : c ≠ '?') : closesTag (c :: r) = false := by
  cases hc : closesTag (c :: r) with
  | false => rfl
  | true =>
    obtain ⟨s, hs⟩ := closesTag_eq_true.mp hc
    exact absurd (List.cons.inj hs).1 h

theorem scanCommand_word {x r : Text} (hx : IsCommandWord x)
    (hr : r.Stops fun c => isWordChar c || c = '-') :
    scanCommand (x ++ r) = .lexeme 0 (commandWordKind x) x := by
  cases x with
  | nil => exact hx.elim
  | cons c x =>
    obtain ⟨hc, hx⟩ := hx
    have hne : ∀ {d}, isLetter d = false → c ≠ d := ne_of_isLetter hc
    have hw : (c :: x).all (fun d => isWordChar d || d = '-') = true := by
      simpa [isWordChar, hc] using hx
    have hrun := Text.takeWhile_run hw hr
    have hblank : isBlank c = false := by
      simp only [isBlank, Bool.or_eq_false_iff, decide_eq_false_iff_not]
      exact ⟨⟨⟨hne rfl, hne rfl⟩, hne rfl⟩, hne rfl⟩
    have hstop : Text.Stops isBlank (c :: (x ++ r)) := hblank
    have hclose : closesTag (c :: (x ++ r)) = false := closesTag_cons_of_ne _ (hne rfl)
    rw [List.cons_append] at hrun ⊢
    unfold scanCommand
    simp only [Text.takeWhile_of_stops hstop, Text.dropWhile_of_stops hstop, hclose,
      Bool.false_eq_true, if_false]
    split
    · rename_i h
      exact absurd (List.cons.inj h).1 (hne rfl)
    · rename_i h
      exact absurd (List.cons.inj h).1 (hne rfl)
    · rw [if_neg (by simp)]
      split
      · rename_i h
        cases h
      · rename_i h
        exact absurd (List.cons.inj h).1 (hne rfl)
      · rename_i h
        exact absurd (List.cons.inj h).1 (hne rfl)
      · rename_i h
        obtain ⟨rfl, rfl⟩ := List.cons.inj h
        rw [if_pos hc, hrun]

theorem scanCommand_blanks {b r : Text} (hne : b ≠ []) (hb : b.all isBlank = true)
    (hs : r.Stops isBlank) (hm : r.Stops fun c => c = ':' || c = '!')
    (hr : closesTag r = false) : scanCommand (b ++ r) = .lexeme 0 .softDelimiter b := by
  unfold scanCommand
  simp only [Text.takeWhile_run hb hs, Text.dropWhile_run hb hs, hr, Bool.false_eq_true, if_false]
  split
  · simp [Text.Stops] at hm
  · simp [Text.Stops] at hm
  · rw [if_pos hne]

theorem scanCommand_of_stands {k : Token.Kind} {x r : Text} (hx : command.IsLexeme k x)
    (hr : command.Ends k x r) : scanCommand (x ++ r) = .lexeme 0 k x := by
  cases k <;> simp only [IsLexeme, Ends] at hx hr
  case keyword k =>
    rw [scanCommand_word hx.1 hr, commandWordKind, hx.2]
  case word =>
    rw [scanCommand_word hx.1 hr, commandWordKind, hx.2]
  case symbol s =>
    obtain ⟨rfl, rfl⟩ := hx
    rfl
  case commentStart =>
    subst hx
    rfl
  case tagClose =>
    obtain ⟨b, hb, rfl⟩ := hx
    have hs : Text.Stops isBlank ("?>" ++ r) := rfl
    rw [List.append_assoc]
    unfold scanCommand
    simp only [Text.takeWhile_run hb hs, Text.dropWhile_run hb hs]
    rfl
  case softDelimiter =>
    rcases hx with ⟨b, b', hb, hb', rfl⟩ | ⟨hne, hb⟩
    · have hs : Text.Stops isBlank (':' :: (b' ++ r)) := rfl
      rw [List.append_assoc, List.cons_append]
      unfold scanCommand
      simp only [Text.takeWhile_run hb hs, Text.dropWhile_run hb hs, Text.takeWhile_run hb' hr.1]
      rfl
    · obtain ⟨hm, hc⟩ := hr.2 hb
      exact scanCommand_blanks hne hb hr.1 hm hc
  case hardDelimiter =>
    obtain ⟨b, b', hb, hb', rfl⟩ := hx
    have hs : Text.Stops isBlank ('!' :: (b' ++ r)) := rfl
    rw [List.append_assoc, List.cons_append]
    unfold scanCommand
    simp only [Text.takeWhile_run hb hs, Text.dropWhile_run hb hs, Text.takeWhile_run hb' hr]
    rfl

/-- A word among the arguments begins with none of the marks that have a rule
of their own. -/
theorem scanArgument_word {n : Nat} {x r : Text} (hne : x ≠ []) (hx : x.all isWordChar = true)
    (hr : r.Stops isWordChar) : scanArgument n (x ++ r) = .lexeme n (wordKind x) x := by
  have hrun := Text.takeWhile_run hx hr
  cases x with
  | nil => exact absurd rfl hne
  | cons c x =>
    have hc : isWordChar c = true := (Bool.and_eq_true _ _ ▸ List.all_cons ▸ hx).1
    have hd : ∀ {d}, isWordChar d = false → c ≠ d := by
      rintro d hd rfl
      rw [hc] at hd
      exact Bool.noConfusion hd
    have hq : (decide (c = '"') || decide (c = '\'')) = false :=
      Bool.or_eq_false_iff.mpr ⟨decide_eq_false (hd rfl), decide_eq_false (hd rfl)⟩
    rw [List.cons_append] at hrun ⊢
    rw [scanArgument, closesTag_cons_of_ne _ (hd rfl), if_neg Bool.false_ne_true, hq,
      if_neg Bool.false_ne_true, if_pos hc, hrun]

theorem scanArgument_of_stands {n : Nat} {k : Token.Kind} {x r : Text}
    (hx : arguments.IsLexeme k x) (hr : arguments.Ends k x r) :
    scanArgument n (x ++ r) = .lexeme n k x := by
  cases k <;> simp only [IsLexeme, Ends] at hx hr
  case decimal =>
    obtain ⟨hne, hw⟩ := isArgumentWord_of_isDecimalWord hx
    rw [scanArgument_word hne hw hr, wordKind_eq_decimal.mpr hx]
  case hex =>
    obtain ⟨hne, hw⟩ := (isArgumentWord_of_isHexWord hx).1
    rw [scanArgument_word hne hw hr, wordKind_eq_hex.mpr hx]
  case word =>
    obtain ⟨⟨hne, hw⟩, hk⟩ := isPlainWord_iff.mp hx
    rw [scanArgument_word hne hw hr, wordKind_eq_word.mpr hk]
  case tagClose =>
    subst hx
    rfl
  case string =>
    obtain ⟨q, w, hq, hw, rfl⟩ := hx
    have hne : q ≠ '?' := by rcases hq with rfl | rfl <;> decide
    have hrun : (w ++ q :: r).takeWhile (· ≠ q) = w := by
      refine Text.takeWhile_run (List.all_eq_true.mpr fun c hc => ?_) (by simp [Text.Stops])
      exact decide_eq_true fun h => hw (h ▸ hc)
    rw [List.append_assoc, List.cons_append, List.singleton_append, scanArgument,
      closesTag_cons_of_ne _ hne, if_neg Bool.false_ne_true, if_pos (by simpa using hq),
      if_pos (by simp), hrun]
  case symbol s =>
    obtain ⟨hs, hc⟩ := Symbol.atStart?_text hr
    subst hx
    obtain ⟨c, x, hx⟩ : ∃ c x, s.text = c :: x := by cases s <;> exact ⟨_, _, rfl⟩
    have hq : (decide (c = '"') || decide (c = '\'')) = false ∧ isWordChar c = false := by
      cases s <;> (cases hx; decide)
    rw [hx, List.cons_append] at hs hc ⊢
    rw [scanArgument, hc, if_neg Bool.false_ne_true, hq.1, if_neg Bool.false_ne_true, hq.2,
      if_neg Bool.false_ne_true, hs, ← hx]

/-- A lexeme among the arguments begins with no blank. -/
theorem IsLexeme.stops_isBlank {k : Token.Kind} {x : Text} (hx : arguments.IsLexeme k x)
    (r : Text) : Text.Stops isBlank (x ++ r) := by
  have hword : IsArgumentWord x → Text.Stops isBlank (x ++ r) := by
    rintro ⟨hne, hw⟩
    cases x with
    | nil => exact absurd rfl hne
    | cons c x =>
      have hc : isWordChar c = true := (Bool.and_eq_true _ _ ▸ List.all_cons ▸ hw).1
      change isBlank c = false
      cases hb : isBlank c with
      | false => rfl
      | true =>
        simp only [isBlank, Bool.or_eq_true, decide_eq_true_eq] at hb
        rcases hb with ((rfl | rfl) | rfl) | rfl <;> exact Bool.noConfusion hc
  cases k <;> simp only [IsLexeme] at hx
  case decimal => exact hword (isArgumentWord_of_isDecimalWord hx)
  case hex => exact hword (isArgumentWord_of_isHexWord hx).1
  case word => exact hword (isPlainWord_iff.mp hx).1
  case tagClose => subst hx; rfl
  case string =>
    obtain ⟨q, w, rfl | rfl, hw, rfl⟩ := hx <;> rfl
  case symbol s => subst hx; cases s <;> rfl

/-- **A lexeme that stands at the head of a text is found there.** -/
theorem scan_of_stands {mode : Mode} {k : Token.Kind} {b x r : Text} (hb : mode.Skips b)
    (hx : mode.IsLexeme k x) (hr : mode.Ends k x r) :
    mode.scan (b ++ (x ++ r)) = .lexeme b.length k x := by
  cases mode with
  | content =>
    rw [hb.2 (by simp)]
    exact scanContent_of_stands hx hr
  | command =>
    rw [hb.2 (by simp)]
    exact scanCommand_of_stands hx hr
  | comment =>
    rw [hb.2 (by simp)]
    exact scanComment_of_stands hx hr
  | arguments =>
    have hs := hx.stops_isBlank r
    rw [scan, Text.takeWhile_run hb.1 hs, Text.dropWhile_run hb.1 hs]
    exact scanArgument_of_stands hx hr

/-! ### What is found is a lexeme that stands -/

/-- The text begins with a lexeme of this kind, behind `n` characters that the
mode passes over. -/
def Stands (mode : Mode) (t : Text) (n : Nat) (k : Token.Kind) (x : Text) : Prop :=
  ∃ b r, t = b ++ (x ++ r) ∧ b.length = n ∧ mode.Skips b ∧ mode.IsLexeme k x ∧ mode.Ends k x r

theorem skips_nil (mode : Mode) : mode.Skips [] := ⟨rfl, fun _ => rfl⟩

theorem stands_of_scanContent {t x : Text} {n : Nat} {k : Token.Kind}
    (h : scanContent t = .lexeme n k x) : content.Stands t n k x := by
  unfold scanContent at h
  split at h
  · cases h
  · rename_i c r
    split at h
    · rename_i ho
      obtain ⟨d, s, hd, ht⟩ := opensTag_eq_true.mp ho
      rw [ht] at h ⊢
      cases h
      refine ⟨[], (d :: s).dropWhile isBlank, ?_, rfl, skips_nil _, ⟨_, ?_, ?_, rfl⟩,
        Text.stops_dropWhile _ _⟩
      · simp [List.takeWhile_append_dropWhile]
      · simp [hd]
      · exact List.all_takeWhile
    · rename_i ho
      cases h
      have hcut : Text.upTo opensTag (c :: r) = c :: Text.upTo opensTag r := by
        rw [Text.upTo, if_neg ho]
      refine ⟨[], Text.after opensTag r, ?_, rfl, skips_nil _, ⟨by simp, ?_⟩,
        Text.after_spec opensTag r⟩
      · simp [Text.upTo_append_after]
      · rw [← hcut]
        exact Text.occurs_upTo opensTag_mono rfl

theorem stands_of_scanComment {t x : Text} {n : Nat} {k : Token.Kind}
    (h : scanComment t = .lexeme n k x) : comment.Stands t n k x := by
  unfold scanComment at h
  split at h
  · cases h
  · rename_i c r
    split at h
    · rename_i hc
      obtain ⟨s, hs⟩ := closesTag_eq_true.mp hc
      rw [hs]
      cases h
      exact ⟨[], s, rfl, rfl, skips_nil _, rfl, trivial⟩
    · rename_i hc
      cases h
      have hcut : Text.upTo closesTag (c :: r) = c :: Text.upTo closesTag r := by
        rw [Text.upTo, if_neg hc]
      refine ⟨[], Text.after closesTag r, ?_, rfl, skips_nil _, ⟨by simp, ?_⟩,
        Text.after_spec closesTag r⟩
      · simp [Text.upTo_append_after]
      · rw [← hcut]
        exact Text.occurs_upTo closesTag_mono rfl

/-- A whole word in command position is a lexeme of its kind. -/
theorem stands_commandWord {c : Char} (hc : isLetter c = true) (r : Text) :
    command.Stands (c :: r) 0
      (commandWordKind ((c :: r).takeWhile fun d => isWordChar d || d = '-'))
      ((c :: r).takeWhile fun d => isWordChar d || d = '-') := by
  have hw : ((c :: r).takeWhile fun d => isWordChar d || d = '-') =
      c :: r.takeWhile fun d => isWordChar d || d = '-' :=
    List.takeWhile_cons_of_pos (by simp [isWordChar, hc])
  have hrun : IsCommandWord ((c :: r).takeWhile fun d => isWordChar d || d = '-') := by
    rw [hw]
    exact ⟨hc, List.all_takeWhile⟩
  refine ⟨[], (c :: r).dropWhile fun d => isWordChar d || d = '-', ?_, rfl, skips_nil _, ?_⟩
  · rw [List.nil_append, List.takeWhile_append_dropWhile]
  · unfold commandWordKind
    split
    · exact ⟨⟨hrun, ‹_›⟩, Text.stops_dropWhile _ _⟩
    · exact ⟨⟨hrun, ‹_›⟩, Text.stops_dropWhile _ _⟩

theorem stands_of_scanCommand {t x : Text} {n : Nat} {k : Token.Kind}
    (h : scanCommand t = .lexeme n k x) : command.Stands t n k x := by
  have hb : (t.takeWhile isBlank).all isBlank = true := List.all_takeWhile
  have hs := Text.stops_dropWhile isBlank t
  have ht : t.takeWhile isBlank ++ t.dropWhile isBlank = t := List.takeWhile_append_dropWhile
  unfold scanCommand at h
  simp only at h
  generalize t.takeWhile isBlank = b at h hb ht
  generalize t.dropWhile isBlank = u at h hs ht
  subst ht
  split at h
  · rename_i hc
    obtain ⟨r, rfl⟩ := closesTag_eq_true.mp hc
    cases h
    exact ⟨[], r, by simp, rfl, skips_nil _, ⟨b, hb, rfl⟩, trivial⟩
  rename_i hc
  split at h
  · rename_i r
    cases h
    refine ⟨[], r.dropWhile isBlank, ?_, rfl, skips_nil _,
      .inl ⟨b, _, hb, List.all_takeWhile, rfl⟩, Text.stops_dropWhile _ _, fun hx => ?_⟩
    · simp [List.takeWhile_append_dropWhile]
    · -- a mark with a `:` in it is not blanks alone
      have := List.all_eq_true.mp hx ':' (by simp)
      exact absurd this (by decide)
  · rename_i r
    cases h
    refine ⟨[], r.dropWhile isBlank, ?_, rfl, skips_nil _, ⟨b, _, hb, List.all_takeWhile, rfl⟩,
      Text.stops_dropWhile _ _⟩
    simp [List.takeWhile_append_dropWhile]
  · rename_i hcolon hbang
    split at h
    · rename_i hne
      cases h
      refine ⟨[], u, rfl, rfl, skips_nil _, .inr ⟨hne, hb⟩, hs, fun _ => ⟨?_, by simpa using hc⟩⟩
      cases u with
      | nil => trivial
      | cons c u =>
        simp only [Text.Stops, Bool.or_eq_false_iff, decide_eq_false_iff_not]
        exact ⟨fun h => hcolon u (h ▸ rfl), fun h => hbang u (h ▸ rfl)⟩
    · rename_i hne
      obtain rfl : b = [] := by simpa using hne
      split at h
      · cases h
      · cases h
        exact ⟨[], _, rfl, rfl, skips_nil _, rfl, trivial⟩
      · cases h
        exact ⟨[], _, rfl, rfl, skips_nil _, ⟨rfl, rfl⟩, trivial⟩
      · rename_i c r _ _
        split at h
        · cases h
          exact stands_commandWord ‹_› r
        · cases h

/-- A whole word among the arguments is a lexeme of its kind. -/
theorem stands_wordKind {x r : Text} (hx : IsArgumentWord x) (hr : r.Stops isWordChar) :
    arguments.IsLexeme (wordKind x) x ∧ arguments.Ends (wordKind x) x r := by
  by_cases hd : isDecimalWord x = true
  · rw [wordKind_eq_decimal.mpr hd]
    exact ⟨hd, hr⟩
  rw [Bool.not_eq_true] at hd
  by_cases hh : isHexWord x = true
  · rw [wordKind_eq_hex.mpr hh]
    exact ⟨hh, hr⟩
  rw [Bool.not_eq_true] at hh
  rw [wordKind_eq_word.mpr ⟨hd, hh⟩]
  exact ⟨isPlainWord_iff.mpr ⟨hx, hd, hh⟩, hr⟩

theorem stands_of_scanArgument {t x : Text} {m n : Nat} {k : Token.Kind}
    (h : scanArgument m t = .lexeme n k x) :
    n = m ∧ ∃ r, t = x ++ r ∧ arguments.IsLexeme k x ∧ arguments.Ends k x r := by
  obtain ⟨hm, ⟨s, hs⟩, hne, -⟩ := scanArgument_lexeme h
  unfold scanArgument at h
  split at h
  · cases h
  rename_i c r
  split at h
  · cases h
    exact ⟨rfl, s, hs.symm, rfl, trivial⟩
  rename_i hclose
  split at h
  · rename_i hq
    split at h
    · cases h
      refine ⟨rfl, s, hs.symm, ⟨c, r.takeWhile (· ≠ c), by simpa using hq, fun hc => ?_, rfl⟩,
        trivial⟩
      simpa using List.all_eq_true.mp List.all_takeWhile c hc
    · cases h
  split at h
  · rename_i hw
    have hx : IsArgumentWord ((c :: r).takeWhile isWordChar) :=
      ⟨by simp [hw], List.all_takeWhile⟩
    simp only [Scan.lexeme.injEq] at h
    obtain ⟨hn, hk, hx'⟩ := h
    rw [hx'] at hk hx
    refine ⟨hm, (c :: r).dropWhile isWordChar, ?_, ?_⟩
    · rw [← hx', List.takeWhile_append_dropWhile]
    · rw [← hk]
      exact stands_wordKind hx (Text.stops_dropWhile _ _)
  split at h
  · rename_i sym hsym
    cases h
    rw [← hs] at hsym hclose
    exact ⟨rfl, s, hs.symm, rfl, Symbol.stops_grows hsym (by simpa using hclose)⟩
  · cases h

/-- **What is found at the head of a text is a lexeme that stands there.** -/
theorem stands_of_scan {mode : Mode} {t x : Text} {n : Nat} {k : Token.Kind}
    (h : mode.scan t = .lexeme n k x) : mode.Stands t n k x := by
  cases mode with
  | content => exact stands_of_scanContent h
  | command => exact stands_of_scanCommand h
  | comment => exact stands_of_scanComment h
  | arguments =>
    obtain ⟨rfl, r, ht, hx, hr⟩ := stands_of_scanArgument h
    refine ⟨t.takeWhile isBlank, r, ?_, rfl, ⟨List.all_takeWhile, fun h => absurd rfl h⟩, hx, hr⟩
    rw [← ht, List.takeWhile_append_dropWhile]

/-! ### Where nothing is found -/

theorem stuck_of_scanArgument {t : Text} {m n : Nat} {c : Char}
    (h : scanArgument m t = .stuck n c) : n = m ∧ ∃ r, t = c :: r := by
  unfold scanArgument at h
  split at h
  · cases h
  rename_i d r
  split at h
  · cases h
  split at h
  · split at h
    · cases h
    · cases h
      exact ⟨rfl, r, rfl⟩
  split at h
  · cases h
  split at h
  · cases h
  · cases h
    exact ⟨rfl, r, rfl⟩

theorem ended_of_scanArgument {t : Text} {m : Nat} (h : scanArgument m t = .ended) : t = [] := by
  cases t with
  | nil => rfl
  | cons c r =>
    simp only [scanArgument] at h
    repeat' split at h
    all_goals cases h

/-- In command position a fault is at the first character, and at the end
there is nothing. -/
theorem scanCommand_cases (t : Text) : (∃ k x, scanCommand t = .lexeme 0 k x) ∨
    (∃ c r, t = c :: r ∧ scanCommand t = .stuck 0 c) ∨ (t = [] ∧ scanCommand t = .ended) := by
  have ht : t.takeWhile isBlank ++ t.dropWhile isBlank = t := List.takeWhile_append_dropWhile
  unfold scanCommand
  simp only
  generalize t.takeWhile isBlank = b at ht
  generalize t.dropWhile isBlank = u at ht
  subst ht
  split
  · exact .inl ⟨_, _, rfl⟩
  split
  · exact .inl ⟨_, _, rfl⟩
  · exact .inl ⟨_, _, rfl⟩
  split
  · exact .inl ⟨_, _, rfl⟩
  rename_i hb
  obtain rfl : b = [] := by simpa using hb
  split
  · exact .inr (.inr ⟨rfl, rfl⟩)
  · exact .inl ⟨_, _, rfl⟩
  · exact .inl ⟨_, _, rfl⟩
  · split
    · exact .inl ⟨_, _, rfl⟩
    · exact .inr (.inl ⟨_, _, rfl, rfl⟩)

theorem scanContent_cases (t : Text) :
    (∃ k x, scanContent t = .lexeme 0 k x) ∨ (t = [] ∧ scanContent t = .ended) := by
  unfold scanContent
  split
  · exact .inr ⟨rfl, rfl⟩
  · split
    · exact .inl ⟨_, _, rfl⟩
    · exact .inl ⟨_, _, rfl⟩

theorem scanComment_cases (t : Text) :
    (∃ k x, scanComment t = .lexeme 0 k x) ∨ (t = [] ∧ scanComment t = .ended) := by
  unfold scanComment
  split
  · exact .inr ⟨rfl, rfl⟩
  · split
    · exact .inl ⟨_, _, rfl⟩
    · exact .inl ⟨_, _, rfl⟩

/-- A mode gets stuck at a character behind what it passes over. -/
theorem stuck_of_scan {mode : Mode} {t : Text} {n : Nat} {c : Char} (h : mode.scan t = .stuck n c) :
    ∃ b r, t = b ++ c :: r ∧ b.length = n ∧ mode.Skips b := by
  cases mode with
  | content =>
    rcases scanContent_cases t with ⟨k, x, h'⟩ | ⟨-, h'⟩ <;> cases h.symm.trans h'
  | comment =>
    rcases scanComment_cases t with ⟨k, x, h'⟩ | ⟨-, h'⟩ <;> cases h.symm.trans h'
  | command =>
    rcases scanCommand_cases t with ⟨k, x, h'⟩ | ⟨d, r, ht, h'⟩ | ⟨-, h'⟩ <;> cases h.symm.trans h'
    exact ⟨[], r, ht, rfl, skips_nil _⟩
  | arguments =>
    obtain ⟨rfl, r, hr⟩ := stuck_of_scanArgument h
    refine ⟨t.takeWhile isBlank, r, ?_, rfl, List.all_takeWhile, fun h => absurd rfl h⟩
    rw [← hr, List.takeWhile_append_dropWhile]

/-- A mode is at the end where it passes over all that is left. -/
theorem ended_of_scan {mode : Mode} {t : Text} (h : mode.scan t = .ended) : mode.Skips t := by
  cases mode with
  | content =>
    rcases scanContent_cases t with ⟨k, x, h'⟩ | ⟨rfl, -⟩
    · cases h.symm.trans h'
    · exact skips_nil _
  | comment =>
    rcases scanComment_cases t with ⟨k, x, h'⟩ | ⟨rfl, -⟩
    · cases h.symm.trans h'
    · exact skips_nil _
  | command =>
    rcases scanCommand_cases t with ⟨k, x, h'⟩ | ⟨d, r, -, h'⟩ | ⟨rfl, -⟩
    · cases h.symm.trans h'
    · cases h.symm.trans h'
    · exact skips_nil _
  | arguments =>
    have hr := ended_of_scanArgument h
    have ht : t.takeWhile isBlank ++ t.dropWhile isBlank = t := List.takeWhile_append_dropWhile
    rw [hr, List.append_nil] at ht
    exact ⟨ht ▸ List.all_takeWhile, fun h => absurd rfl h⟩

/-- Nothing is left. -/
theorem scan_nil (mode : Mode) : mode.scan [] = .ended := by cases mode <;> rfl

end Mode
end ClearSilver
