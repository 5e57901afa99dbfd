/-
# Where errors are

Whatever stops a parse, it is something that the scanner meets in the source: a
character that begins no lexeme, a token that it gives, or the tag that opened a
block (`Fault.MetFrom`). So the offset of an error lies in the source, and its
line and its column count what stands before (`ParseError.IsAbout`). This holds
of templates and of bare expressions.

Key definitions: `Fault.MetFrom`, `ParseError.IsAbout`.
Key theorems: `metFrom_of_parse`, `metFrom_of_parseExpression`,
`Fault.MetFrom.isAbout`, `isAbout_of_error`.
-/
import ClearSilver.Proofs.Parse.Bare
import ClearSilver.Proofs.Parse.Borders
import ClearSilver.Proofs.Parse.Positions
import ClearSilver.Proofs.Parse.Unclosed

namespace ClearSilver

variable {source name : Text} {mode : Mode} {fault : Fault} {e : ParseError}

/-! ### What a scanner meets -/

namespace Pulls

variable {toks : List Token} {s s' : Scanner} {tok : Token}

/-- A scanner stays inside its source. -/
theorem pos_le (h : Pulls s toks s') (hs : s.pos ≤ s.source.length) :
    s'.pos ≤ s.source.length := ((h.tiles hs).1.le hs).2

/-- The end is at the end of the source. -/
theorem eq_atEnd (h : Pulls s toks s') (hs : s.pos ≤ s.source.length) (htok : tok ∈ toks)
    (hk : tok.kind = .eof) : tok = Token.atEnd s.source.length := by
  obtain ⟨front, back, rfl⟩ := List.append_of_mem htok
  obtain ⟨s₁, hfront, hback⟩ := h.split
  cases hback with
  | more hnext _ =>
    rw [← (hfront.tiles hs).2.1]
    exact Scanner.next_eof hnext hk

end Pulls

/-- Does a scanner meet what the fault is about: a character that stops it, a
token that it gives or a tag that opens? -/
def Fault.MetFrom (start : Scanner) : Fault → Prop
  | lexical f => ∃ toks s, Pulls start toks s ∧ s.next = (.error f, s)
  | unexpected _ found => ∃ toks s, Pulls start toks s ∧ found ∈ toks
  | unclosed _ openTag => ∃ toks s, Pulls start toks s ∧ openTag ∈ toks ∧ openTag.kind = .tagOpen
  | exhausted => False

/-! ### What stops a parse -/

/-- A block that is never closed was opened by a tag of the source. -/
theorem metFrom_of_unclosed {keyword openTag : Token} (h : parse source name = .error e)
    (hcause : e.cause = .unclosed keyword openTag) : ∃ toks s,
      Pulls (Scanner.start source .content) toks s ∧ openTag ∈ toks ∧ openTag.kind = .tagOpen := by
  obtain ⟨-, us, outer, hends⟩ := endsInside_of_parse h hcause
  obtain ⟨s, last, hp, -⟩ := hends.pulls
  have hopen : ⟨openTag, keyword⟩ ∈ openBlocks [] us := by
    rw [hends.body.opens.openBlocks_eq]
    exact List.mem_cons_self
  rcases opened_of_mem us hopen with hnone | ⟨xs, ys, k, hus, ho, -⟩
  · cases hnone
  · exact ⟨us, s, hp, by simp [hus], ho⟩

/-- **What stops a template** is met by the scanner of the source. -/
theorem metFrom_of_parse (h : parse source name = .error e) :
    e.cause.MetFrom (Scanner.start source .content) := by
  obtain ⟨fault, houtcome, he⟩ := templateRun_of_parse_error h
  have hcause : e.cause = fault := congrArg ParseError.cause he
  rw [hcause]
  obtain ⟨toks, s, hp, ⟨f, rfl, hn⟩ | hstops⟩ := templateRun_stops houtcome
  · exact ⟨toks, s, hp, hn⟩
  · cases fault with
    | lexical f => exact hstops.elim
    | unexpected expected found =>
      obtain ⟨before, rfl, -⟩ := hstops
      exact ⟨_, s, hp, by simp⟩
    | unclosed keyword openTag => exact metFrom_of_unclosed h hcause
    | exhausted => exact absurd houtcome (templateRun_ne_exhausted source)

/-- **What stops a bare expression** is met by the scanner of the source. -/
theorem metFrom_of_parseExpression (h : parseExpression source name = .error e) :
    e.cause.MetFrom (Scanner.start source .arguments) := by
  obtain ⟨fault, houtcome, rfl⟩ := expressionRun_of_parse_error h
  obtain ⟨toks, s, hp, ⟨f, rfl, hn⟩ | hstops⟩ := expressionRun_stops houtcome
  · exact ⟨toks, s, hp, hn⟩
  · cases fault with
    | lexical f => exact hstops.elim
    | unexpected expected found => exact ⟨toks, s, hp, List.mem_of_getLast? hstops⟩
    | unclosed keyword openTag => exact hstops.elim
    | exhausted => exact absurd houtcome (expressionRun_ne_exhausted source)

/-! ### Coordinates -/

/-- Is the error about this source, read from this mode on, and does it tell
where what stopped the parse stands? -/
structure ParseError.IsAbout (source name : Text) (mode : Mode) (e : ParseError) : Prop where
  inside : e.offset ≤ source.length
  line : e.line = (source.take e.offset).count '\n' + 1
  column : e.column = (Text.lastLine (source.take e.offset)).length + 1
  named : e.name = name
  message : e.message = (if name = [] then [] else name ++ ": " : Text) ++
    ("line " ++ decimal e.line ++ ", col " ++ decimal e.column ++ ": " : Text) ++ e.cause.message
  lexical : ∀ f, e.cause = .lexical f → e.offset < source.length ∧
    source[e.offset]? = some f.char ∧ f.offset = e.offset ∧
      ∃ toks s, Pulls (Scanner.start source mode) toks s ∧ s.mode = f.mode ∧ s.next = (.error f, s)
  unexpected : ∀ expected found, e.cause = .unexpected expected found → e.offset = found.offset ∧
    (∃ toks s, Pulls (Scanner.start source mode) toks s ∧ found ∈ toks) ∧
      (found.described = "end of input" → e.offset = source.length)
  unclosed : ∀ keyword openTag, e.cause = .unclosed keyword openTag →
    opensTag (source.drop e.offset) = true
  lasts : e.cause ≠ .exhausted

/-- The message of an error, with its place and with the name of the source. -/
theorem ParseError.message_eq (e : ParseError) :
    e.message = (if e.name = [] then [] else e.name ++ ": " : Text) ++
      ("line " ++ decimal e.line ++ ", col " ++ decimal e.column ++ ": " : Text) ++
        e.cause.message := by
  unfold message placed
  cases e.name with
  | nil => rfl
  | cons c r => simp

namespace Fault.MetFrom

/-- What a scanner meets stands inside its source. -/
theorem offset_le (h : fault.MetFrom (Scanner.start source mode)) :
    fault.offset ≤ source.length := by
  cases fault with
  | lexical f =>
    obtain ⟨toks, s, hp, hn⟩ := h
    obtain ⟨htiles, hsource, -⟩ := hp.tiles (Nat.zero_le _)
    have hpos : s.pos ≤ s.source.length := hsource ▸ hp.pos_le (Nat.zero_le _)
    have hinside := (Scanner.next_error hn hpos).1.inside
    rwa [hsource] at hinside
  | unexpected expected found =>
    obtain ⟨toks, s, hp, hfound⟩ := h
    exact (hp.offset_le (Nat.zero_le _) found hfound).trans (hp.pos_le (Nat.zero_le _))
  | unclosed keyword openTag =>
    obtain ⟨toks, s, hp, hopen, -⟩ := h
    exact (hp.offset_le (Nat.zero_le _) openTag hopen).trans (hp.pos_le (Nat.zero_le _))
  | exhausted => exact h.elim

/-- **A fault that is met** gives an error that tells where. -/
theorem isAbout (h : fault.MetFrom (Scanner.start source mode)) (name : Text) :
    (fault.located source name).IsAbout source name mode where
  inside := h.offset_le
  line := location_line source fault.offset
  column := location_column_inside h.offset_le
  named := rfl
  message := (fault.located source name).message_eq
  lexical := by
    rintro f rfl
    obtain ⟨toks, s, hp, hn⟩ := h
    obtain ⟨-, hsource, -⟩ := hp.tiles (Nat.zero_le _)
    have hpos : s.pos ≤ s.source.length := hsource ▸ hp.pos_le (Nat.zero_le _)
    obtain ⟨-, hmode, hat⟩ := Scanner.next_error hn hpos
    rw [hsource] at hat
    exact ⟨(List.getElem?_eq_some_iff.mp hat).1, hat, rfl, toks, s, hp, hmode.symm, hn⟩
  unexpected := by
    rintro expected found rfl
    obtain ⟨toks, s, hp, hfound⟩ := h
    refine ⟨rfl, ⟨toks, s, hp, hfound⟩, fun hend => ?_⟩
    have heq := hp.eq_atEnd (Nat.zero_le _) hfound (Token.eof_of_described hend)
    exact congrArg Token.offset heq
  unclosed := by
    rintro keyword openTag rfl
    obtain ⟨toks, s, hp, hopen, hk⟩ := h
    exact hp.opensTag openTag hopen hk
  lasts := by
    rintro rfl
    exact h

end Fault.MetFrom

/-- **Every error tells where it is.** If a template or a bare expression does
not parse, then the offset of the error lies in the source, its line and its
column count what stands before, and its message begins with them and the name of
the source. A character that begins no lexeme stands at the offset and was met in
the mode that is named; a token that was not expected is one that the scanner
gave there, at the end of the source if it is shown as the end; and a tag opens
where a block is never closed. -/
theorem isAbout_of_error (source name : Text) (e : ParseError) :
    (parse source name = .error e → e.IsAbout source name .content) ∧
      (parseExpression source name = .error e → e.IsAbout source name .arguments) := by
  constructor
  · intro h
    have hmet := metFrom_of_parse h
    obtain ⟨fault, -, rfl⟩ := templateRun_of_parse_error h
    exact hmet.isAbout name
  · intro h
    have hmet := metFrom_of_parseExpression h
    obtain ⟨fault, -, rfl⟩ := expressionRun_of_parse_error h
    exact hmet.isAbout name

/-- A string that is not closed, a block that is not, and an expression that
ends too early, each on a second line. -/
theorem isAbout_of_error_stopped :
    (∃ e, parse "a\n<?cs var:\"b ?>" "t" = .error e ∧
      e.IsAbout "a\n<?cs var:\"b ?>" "t" .content ∧
        e.message = "t: line 2, col 10: unexpected character '\"' in args state") ∧
    (∃ e, parse "a\n<?cs alt:b ?>c" [] = .error e ∧
      e.IsAbout "a\n<?cs alt:b ?>c" [] .content ∧ (e.offset, e.line, e.column) = (2, 2, 1)) ∧
    ∃ e, parseExpression "a +\n " [] = .error e ∧ e.IsAbout "a +\n " [] .arguments ∧
      e.message = "line 2, col 2: expected expression, found end of input" := by
  have hstring : parse "a\n<?cs var:\"b ?>" "t" =
      .error ⟨.lexical ⟨.arguments, '"', 11⟩, 11, 2, 10, "t"⟩ :=
    eq_error_of_failure? (by decide +kernel)
  have hblock : parse "a\n<?cs alt:b ?>c" [] =
      .error ⟨.unclosed ⟨.keyword .alt, "alt", 7⟩ ⟨.tagOpen, "<?cs ", 2⟩, 2, 2, 1, []⟩ :=
    eq_error_of_failure? (by decide +kernel)
  have hoperand : parseExpression "a +\n " [] =
      .error ⟨.unexpected .expression ⟨.eof, [], 5⟩, 5, 2, 2, []⟩ :=
    eq_error_of_failure? (by decide +kernel)
  exact ⟨⟨_, hstring, (isAbout_of_error _ _ _).1 hstring, by decide +kernel⟩,
    ⟨_, hblock, (isAbout_of_error _ _ _).1 hblock, rfl⟩,
    _, hoperand, (isAbout_of_error _ _ _).2 hoperand, by decide +kernel⟩

end ClearSilver
