/-
# Bodies stand between borders of content

At each moment at which a body begins nothing is looked at and the scanner
reads content, and at each moment at which it ends the end of the input or a
tag that closes or continues a block is looked at. So a template never stops
because a tag does not open, it never finds literal text where it stops, and
where it wants a command or the end it has found `/`, `else` or `elif`.

Key theorems: `Pulls.mode`, `Moment.exists_noted`, `Fault.StopsTemplate.found`,
`borders_of_parse`.
-/
import ClearSilver.Proofs.Parse.Lookahead

namespace ClearSilver

/-- A scanner is in the mode that its tokens lead to. -/
theorem Pulls.mode {s s' : Scanner} {toks : List Token} (h : Pulls s toks s') :
    s'.mode = toks.foldl (fun mode tok => mode.step tok.kind) s.mode := by
  induction h with
  | none s => rfl
  | @more s s₁ s₂ tok toks hp _ ih =>
    cases Scanner.gives_of_next hp with
    | lexeme _ _ _ _ => exact ih
    | atEnd _ =>
      rw [List.foldl_cons, Token.atEnd, Mode.step_eof]
      exact ih

/-! ### What is found where a template stops -/

/-- How a token that closes or continues a block is written. -/
theorem Mode.IsLexeme.text_of_endsBody {mode : Mode} {k : Token.Kind} {x : Text}
    (h : mode.IsLexeme k x) (hk : endsBody k = true) :
    x ∈ (["/", "else", "elif", "elseif"] : List Text) := by
  have hkeywords : ∀ p ∈ Keyword.spellings, endsBody (.keyword p.2) = true →
      p.1 ∈ (["/", "else", "elif", "elseif"] : List Text) := by decide
  cases k with
  | keyword k =>
    cases mode with
    | command => exact hkeywords _ (Keyword.mem_spellings h.2) hk
    | _ => exact h.elim
  | symbol s =>
    obtain rfl : s = .slash := by cases s <;> first | rfl | cases hk
    cases mode with
    | command => exact h.2 ▸ List.mem_cons_self
    | arguments =>
      obtain rfl : x = _ := h
      exact List.mem_cons_self
    | _ => exact h.elim
  | _ => cases hk

theorem Text.quoted_head? (t : Text) : t.quoted.head? = some '\'' ∨ t.quoted.head? = some '"' := by
  have hhead : t.quoted.head? = some t.quoteMark := rfl
  rw [hhead, quoteMark]
  split
  · exact .inr rfl
  · exact .inl rfl

theorem mem_of_endsBody {k : Token.Kind} (h : endsBody k = true) :
    k ∈ [Token.Kind.symbol .slash, .keyword .elseTag, .keyword .elseIf] := by
  unfold endsBody at h
  split at h
  · simp
  · simp
  · simp
  · cases h

namespace Token

/-- The first character tells how a token is shown. -/
theorem described_head? (tok : Token) : tok.kind = .eof ∧ tok.described.head? = some 'e' ∨
    tok.kind = .data ∧ tok.described.head? = some 't' ∨
      ∃ c ∈ ['d', '\'', '"'], tok.described.head? = some c := by
  unfold described
  split
  · exact .inl ⟨‹_›, rfl⟩
  · exact .inr (.inl ⟨‹_›, rfl⟩)
  · exact .inr (.inr ⟨'d', by simp, rfl⟩)
  · exact .inr (.inr ⟨'d', by simp, rfl⟩)
  · rcases tok.text.stripped.quoted_head? with h | h
    · exact .inr (.inr ⟨'\'', by simp, h⟩)
    · exact .inr (.inr ⟨'"', by simp, h⟩)

variable {tok : Token}

/-- Only the end is shown as the end. -/
theorem eof_of_described (h : tok.described = "end of input") : tok.kind = .eof := by
  have hhead : tok.described.head? = some 'e' := by
    rw [h]
    rfl
  rcases tok.described_head? with ⟨hk, -⟩ | ⟨-, ht⟩ | ⟨c, hc, ht⟩
  · exact hk
  · rw [hhead] at ht
    cases ht
  · rw [hhead] at ht
    obtain rfl := Option.some.inj ht
    exact absurd hc (by decide)

/-- Only literal text is shown as text. -/
theorem data_of_described (h : tok.described.startsWith "text " = true) : tok.kind = .data := by
  obtain ⟨r, hr⟩ := Text.startsWith_iff.mp h
  have hhead : tok.described.head? = some 't' := by
    rw [← hr]
    rfl
  rcases tok.described_head? with ⟨-, ht⟩ | ⟨hk, -⟩ | ⟨c, hc, ht⟩
  · rw [hhead] at ht
    cases ht
  · exact hk
  · rw [hhead] at ht
    obtain rfl := Option.some.inj ht
    exact absurd hc (by decide)

/-- How messages show a token that closes or continues a block. -/
theorem described_of_endsBody (hk : endsBody tok.kind = true)
    (hx : tok.text ∈ (["/", "else", "elif", "elseif"] : List Text)) :
    tok.described ∈ (["'/'", "'else'", "'elif'", "'elseif'"] : List Text) := by
  have hshown : ∀ x ∈ (["/", "else", "elif", "elseif"] : List Text),
      x.stripped.quoted ∈ (["'/'", "'else'", "'elif'", "'elseif'"] : List Text) := by
    decide +kernel
  have hdescribed : tok.described = tok.text.stripped.quoted := by
    unfold described
    split <;> rename_i hkind <;> first | rfl | (rw [hkind] at hk; cases hk)
  rw [hdescribed]
  exact hshown _ hx

end Token

namespace Expectation

variable {expected : Expectation} {found : Token}

/-- A template never expects that a tag opens. -/
theorem OfTemplate.text_ne (h : expected.OfTemplate found) : expected.text ≠ "'<?cs'" := by
  cases expected with
  | tagOpen | phrase _ => exact h.elim
  | symbol s => cases s <;> decide
  | delimiterAfter keyword =>
    intro htext
    have hsecond : some ':' = some '<' := congrArg (fun t : Text => t.tail.head?) htext
    cases hsecond
  | closeOf keyword =>
    intro htext
    have hsecond : some '/' = some '<' := congrArg (fun t : Text => t.tail.head?) htext
    cases hsecond
  | _ => decide

/-- What is called a command or the end is expected as such. -/
theorem OfTemplate.eq_commandOrEnd (h : expected.OfTemplate found)
    (htext : expected.text = "a command or end of input") : expected = .commandOrEnd := by
  cases expected with
  | commandOrEnd => rfl
  | tagOpen | phrase _ => exact h.elim
  | symbol s => cases s <;> exact absurd htext (by decide)
  | delimiterAfter keyword | closeOf keyword =>
    have hfirst := congrArg List.head? htext
    cases hfirst
  | _ => exact absurd htext (by decide)

end Expectation

/-! ### The moments at which bodies begin and end -/

/-- Each event of a run is noted at one of its moments. -/
theorem Moment.exists_noted {σ α : Type} [TokenSource σ] {m m' : Moment σ α} {event : Event}
    (h : m.Reaches m') (he : event ∈ m'.events) :
    event ∈ m.events ∨ ∃ m₁ next, m.Reaches m₁ ∧ m₁.script = .note event next := by
  induction h with
  | refl => exact .inl he
  | @tail m₁ m₂ hr hn ih =>
    cases then_of_next hn with
    | @note event' script events p =>
      rcases List.mem_append.mp he with he | he
      · exact ih he
      · obtain rfl := List.mem_singleton.mp he
        exact .inr ⟨_, script, hr, rfl⟩
    | look _ => exact ih he
    | take _ => exact ih he
    | pull _ _ => exact ih he

/-- Where a template stops at a token it reads a tag, and the token is a lexeme
of the tag or the end. -/
theorem stops_of_parse {source name : Text} {e : ParseError} {expected : Expectation}
    {found : Token} (h : parse source name = .error e)
    (hcause : e.cause = .unexpected expected found) : ∃ mode : Mode, mode ≠ .content ∧
      (found.kind = .eof ∨ mode.IsLexeme found.kind found.text) ∧ expected.OfTemplate found := by
  obtain ⟨fault, houtcome, rfl⟩ := templateRun_of_parse_error h
  obtain rfl : fault = .unexpected expected found := hcause
  obtain ⟨toks, s, hp, ⟨f, hf, -⟩ | ⟨before, rfl, hmode, hexpected⟩⟩ := templateRun_stops houtcome
  · cases hf
  · exact ⟨modeBehind before, hmode, hp.lexical.concat, hexpected⟩

/-- **Bodies begin and end at borders of content.** At each moment at which a
body begins the queue is empty and the scanner reads content, and at each moment
at which one ends the next token is the end, or a tag opens that closes or
continues a block. So where a template stops at a token it does not expect that
a tag opens, the token is not literal text, and where it expects a command or the
end it has found the beginning of such a tag. -/
theorem borders_of_parse (source : Text) :
    (∀ m next, (Moment.ofTemplate source).Reaches m → m.script = .note .bodyStart next →
      m.intake.lookahead.queue = [] ∧ m.intake.lookahead.source.mode = .content) ∧
    (∀ m next, (Moment.ofTemplate source).Reaches m → m.script = .note .bodyEnd next →
      (∃ tok, m.intake.lookahead.queue = [tok] ∧ tok.kind = .eof) ∨
        ∃ openTag tok, m.intake.lookahead.queue = [openTag, tok] ∧ openTag.kind = .tagOpen ∧
          tok.kind ∈ [.symbol .slash, .keyword .elseTag, .keyword .elseIf]) ∧
    ∀ name e expected found, parse source name = .error e → e.cause = .unexpected expected found →
      expected.text ≠ "'<?cs'" ∧
      found.kind ≠ .data ∧ found.described.startsWith "text " = false ∧
      (expected.text = "a command or end of input" →
        found.described ∈ (["'/'", "'else'", "'elif'", "'elseif'"] : List Text)) := by
  refine ⟨fun m next hm hscript => ?_, fun m next hm hscript => ?_, ?_⟩
  · have hkept := Moment.kept_of_reaches (Intake.kept_start _) hm
    have hstart := (Moment.upholds_ofTemplate hm).script
    rw [hscript] at hstart
    obtain ⟨⟨hqueue, hcontent⟩, -⟩ := hstart
    have htokens := hkept.tokens
    rw [hqueue, List.append_nil] at htokens
    exact ⟨hqueue, hkept.pulls.mode.trans (htokens ▸ hcontent)⟩
  · have hend := (Moment.upholds_ofTemplate hm).script
    rw [hscript] at hend
    rcases hend.1 with hend | ⟨openTag, tok, hqueue, hopen, hends⟩
    · exact .inl hend
    · exact .inr ⟨openTag, tok, hqueue, hopen, mem_of_endsBody hends⟩
  · intro name e expected found h hcause
    obtain ⟨mode, hmode, hfound, hexpected⟩ := stops_of_parse h hcause
    have hdata : found.kind ≠ .data := by
      rcases hfound with hk | hx
      · simp [hk]
      · exact fun hk => hmode (hx.mode_eq_content (.inl hk))
    refine ⟨hexpected.text_ne, hdata, ?_, fun htext => ?_⟩
    · exact Bool.eq_false_iff.mpr fun htext => hdata (Token.data_of_described htext)
    · obtain rfl := hexpected.eq_commandOrEnd htext
      have hends : endsBody found.kind = true := hexpected
      rcases hfound with hk | hx
      · rw [hk] at hends
        cases hends
      · exact Token.described_of_endsBody hends (hx.text_of_endsBody hends)

/-- A close tag behind the end of the block that it could close. -/
theorem borders_of_parse_stray :
    (∃ m next, (Moment.ofTemplate "<?cs alt:a ?>b<?cs /alt ?>c<?cs /alt ?>").Reaches m ∧
      m.script = .note .bodyStart next ∧ m.intake.lookahead.queue = [] ∧
        m.intake.lookahead.source.mode = .content) ∧
    (∃ m next, (Moment.ofTemplate "<?cs alt:a ?>b<?cs /alt ?>c<?cs /alt ?>").Reaches m ∧
      m.script = .note .bodyEnd next ∧
        ((∃ tok, m.intake.lookahead.queue = [tok] ∧ tok.kind = .eof) ∨
          ∃ openTag tok, m.intake.lookahead.queue = [openTag, tok] ∧ openTag.kind = .tagOpen ∧
            tok.kind ∈ [.symbol .slash, .keyword .elseTag, .keyword .elseIf])) ∧
    ∃ e found, parse "<?cs alt:a ?>b<?cs /alt ?>c<?cs /alt ?>" [] = .error e ∧
      e.cause = .unexpected .commandOrEnd found ∧
        found.described ∈ (["'/'", "'else'", "'elif'", "'elseif'"] : List Text) := by
  obtain ⟨hstart, hend, hstops⟩ := borders_of_parse "<?cs alt:a ?>b<?cs /alt ?>c<?cs /alt ?>"
  obtain ⟨m, last, hreaches, -, hevents, -⟩ := Script.run_reaches
    (Moment.ofTemplate "<?cs alt:a ?>b<?cs /alt ?>c<?cs /alt ?>").script []
    (.start (Scanner.start "<?cs alt:a ?>b<?cs /alt ?>c<?cs /alt ?>" .content))
  have hnoted : ∀ event ∈ (templateRun "<?cs alt:a ?>b<?cs /alt ?>c<?cs /alt ?>").events,
      ∃ m next, (Moment.ofTemplate "<?cs alt:a ?>b<?cs /alt ?>c<?cs /alt ?>").Reaches m ∧
        m.script = .note event next := by
    intro event he
    refine (Moment.exists_noted hreaches (hevents ▸ ?_)).resolve_left (by simp)
    exact he
  obtain ⟨m₁, next₁, hm₁, hscript₁⟩ := hnoted .bodyStart (by decide +kernel)
  obtain ⟨m₂, next₂, hm₂, hscript₂⟩ := hnoted .bodyEnd (by decide +kernel)
  have hparse : parse "<?cs alt:a ?>b<?cs /alt ?>c<?cs /alt ?>" [] =
      .error ⟨.unexpected .commandOrEnd ⟨.symbol .slash, "/", 32⟩, 32, 1, 33, []⟩ :=
    eq_error_of_failure? (by decide +kernel)
  exact ⟨⟨m₁, next₁, hm₁, hscript₁, hstart m₁ next₁ hm₁ hscript₁⟩,
    ⟨m₂, next₂, hm₂, hscript₂, hend m₂ next₂ hm₂ hscript₂⟩,
    _, _, hparse, rfl, (hstops [] _ _ _ hparse rfl).2.2.2 rfl⟩

end ClearSilver
