/-
# A source is parsed as its finished tokens are

The parser pulls tokens as it goes, and so it may stop before the scanner
does. A source whose parse comes to the end has a batch of all its tokens, and
where the batch is stopped by a character, the parse is stopped by the same
character or by a token before it. Over a finished batch the parser goes the
same way as over the scanner, as both give the same tokens.

Key definitions: `batchRun`.
Key theorems: `tokenize_of_parse`, `parse_of_tokenize_error`,
`templateRun_agrees`, `parse_agrees`.
-/
import ClearSilver.Proofs.Parse.Outcome
import ClearSilver.Proofs.Parse.Texts
import ClearSilver.Proofs.Parse.Unclosed
import ClearSilver.Proofs.Script.Sources

namespace ClearSilver

/-- The run of the template grammar over a finished list of tokens, behind
which the end repeats. -/
def batchRun (source : Text) (toks : List Token) : Run Tape Command :=
  (Script.template (.among (lineStarts source)) (budgetFor source)).run
    (.start ⟨toks, Token.atEnd source.length⟩)

variable {source name : Text}

/-! ### Parses that come to the end -/

theorem tokenize_of_parse {c : Command} (h : parse source name = .ok c) :
    ∃ toks, tokenize source = .ok toks := by
  obtain ⟨us, s, last, hp, -, heof, hn, -⟩ := templateRun_ok (templateRun_of_parse h)
  have htoks : tokenize source = .ok (us ++ [Token.atEnd source.length]) :=
    tokenize_eq_ok_iff.mpr ⟨us, s, rfl, ne_eof_of_not_mem heof, hp, last, hn⟩
  exact ⟨_, htoks⟩

theorem tokenize_of_unclosed {e : ParseError} {keyword openTag : Token}
    (h : parse source name = .error e) (hcause : e.cause = .unclosed keyword openTag) :
    ∃ toks, tokenize source = .ok toks := by
  obtain ⟨-, us, outer, hends⟩ := endsInside_of_parse h hcause
  obtain ⟨s, last, hp, hn⟩ := hends.pulls
  have htoks : tokenize source = .ok (us ++ [Token.atEnd source.length]) :=
    tokenize_eq_ok_iff.mpr ⟨us, s, rfl, hends.body.ne_eof, hp, last, hn⟩
  exact ⟨_, htoks⟩

/-! ### Batches that are stopped -/

/-- The tokens up to a fault, and the scanner that meets it. -/
theorem tokenize_eq_error {fault : LexicalFault} (h : tokenize source = .error fault) :
    ∃ toks s, Pulls (Scanner.start source .content) toks s ∧ s.next = (.error fault, s) ∧
      ∀ tok ∈ toks, tok.kind ≠ .eof := by
  obtain ⟨toks, s, hne, hp, hend⟩ := (Scanner.start source .content).drain_cases
  rw [tokenize] at h
  rcases hend with ⟨last, -, hd⟩ | ⟨fault', hn, hd⟩
  · rw [hd] at h
    cases h
  · rw [hd] at h
    cases h
    exact ⟨toks, s, hp, hn, hne⟩

/-- Every token before a fault begins before it. -/
theorem offset_lt_fault {toks : List Token} {s : Scanner} {fault : LexicalFault}
    (hp : Pulls (Scanner.start source .content) toks s) (hn : s.next = (.error fault, s))
    (hne : ∀ tok ∈ toks, tok.kind ≠ .eof) : ∀ tok ∈ toks, tok.offset < fault.offset := by
  obtain ⟨htiles, hsource, htext⟩ := hp.tiles (Nat.zero_le _)
  have hle : s.pos ≤ s.source.length := by
    rw [hsource]
    exact (htiles.le (Nat.zero_le _)).2
  have hgap := (Scanner.next_error hn hle).1.le
  intro tok htok
  have hend := htiles.end_le (Nat.zero_le _) tok htok
  have hpos := List.length_pos_iff.mpr (htext tok htok (hne tok htok))
  omega

/-- **A batch that is stopped** stops the parse: at the same character, or at
a token before it. -/
theorem parse_of_tokenize_error {fault : LexicalFault} (h : tokenize source = .error fault)
    (name : Text) : ∃ e, parse source name = .error e ∧
      (e = (Fault.lexical fault).located source name ∨
        ∃ expected found, e.cause = .unexpected expected found ∧ e.offset < fault.offset) := by
  obtain ⟨toks, s, hp, hn, hne⟩ := tokenize_eq_error h
  have hnone : ∀ toks', tokenize source ≠ .ok toks' := by
    intro toks' hok
    rw [h] at hok
    cases hok
  cases hparse : parse source name with
  | ok c =>
    obtain ⟨toks', htoks'⟩ := tokenize_of_parse hparse
    exact absurd htoks' (hnone toks')
  | error e =>
    refine ⟨e, rfl, ?_⟩
    obtain ⟨cause, hcause, rfl⟩ := templateRun_of_parse_error hparse
    have hdecides : Decides source toks s := .of_fault hp hne hn
    have hobeys := Script.template_obeys (.among (lineStarts source)) (budgetFor source) hp.lexical
    change ((templateScript source).feed toks).Obeys _ _ _ at hobeys
    cases hfed : (templateScript source).feed toks with
    | gave c rest =>
      have houtcome := templateRun_of_outcome hp (o := .ok c) (by rw [hfed]; rfl)
      rw [houtcome] at hcause
      cases hcause
    | waiting =>
      -- the parser waits only where the scanner is stopped
      rw [templateRun_of_waiting hp hn hfed] at hcause
      cases hcause
      exact .inl rfl
    | failed fault' =>
      have houtcome := templateRun_of_outcome hp (o := .error fault') (by rw [hfed]; rfl)
      rw [houtcome] at hcause
      cases hcause
      rw [hfed] at hobeys
      cases hobeys with
      | @unexpected expected found before after hts _ =>
        refine .inr ⟨expected, found, rfl, ?_⟩
        exact offset_lt_fault hp hn hne found (by simp [hts])
      | unclosed keyword openTag =>
        obtain ⟨toks', htoks'⟩ := tokenize_of_unclosed hparse rfl
        exact absurd htoks' (hnone toks')
      | exhausted => exact absurd hfed hdecides.lasts

/-! ### Finished batches -/

/-- **The parser goes over a scanner as over its finished tokens.** -/
theorem templateRun_agrees {toks : List Token} (h : tokenize source = .ok toks) :
    (templateRun source).outcome = (batchRun source toks).outcome ∧
      (templateRun source).events = (batchRun source toks).events := by
  obtain ⟨pre, s, rfl, -, hp, last, hn⟩ := tokenize_eq_ok_iff.mp h
  have hreads : (Scanner.start source .content).ReadsTape
      ⟨pre ++ [Token.atEnd source.length], Token.atEnd source.length⟩ :=
    ⟨last, hp.append (.more hn (.none last)), Scanner.next_end hn rfl⟩
  exact Script.run_agrees agrees_reads _ ⟨hreads, rfl⟩

/-- A finished batch meets no character that stops it. -/
theorem batchRun_ne_lexical (source : Text) (toks : List Token) (fault : LexicalFault) :
    (batchRun source toks).outcome ≠ .error (.lexical fault) := by
  intro hlexical
  rw [batchRun] at hlexical
  obtain ⟨us, t, -, hrun⟩ := Script.run_feed
    (.template (.among (lineStarts source)) (budgetFor source))
    (.start (⟨toks, Token.atEnd source.length⟩ : Tape))
  have hkeeps := Script.template_keeps (.among (lineStarts source)) (budgetFor source)
    ((Lookahead.start (⟨toks, Token.atEnd source.length⟩ : Tape)).queue ++ us)
  generalize Script.feed _ _ = fed at hrun hkeeps
  cases hrun with
  | gave ho _ =>
    rw [ho] at hlexical
    cases hlexical
  | failed ho =>
    rw [ho] at hlexical
    cases hlexical
    cases hkeeps
  | waiting _ hpull =>
    obtain ⟨_ | ⟨tok, rest⟩, last⟩ := t
    · cases hpull
    · cases hpull

/-- **Pulling tokens agrees with the batch of all of them.** A source that
parses, or is left with a block open, has a batch. Where the batch is stopped,
the parse is stopped by the same fault or by a token that begins before it.
Where there is a batch, the parse is the run over it, and no character stops
it. -/
theorem parse_agrees (source name : Text) :
    ((∃ c, parse source name = .ok c) ∨
        (∃ e keyword openTag, parse source name = .error e ∧
          e.cause = .unclosed keyword openTag) →
      ∃ toks, tokenize source = .ok toks) ∧
    (∀ fault, tokenize source = .error fault → ∃ e, parse source name = .error e ∧
      (e = (Fault.lexical fault).located source name ∨
        ∃ expected found, e.cause = .unexpected expected found ∧ e.offset < fault.offset)) ∧
    ∀ toks, tokenize source = .ok toks →
      parse source name = (batchRun source toks).outcome.mapError (·.located source name) ∧
      (templateRun source).events = (batchRun source toks).events ∧
      ∀ e fault, parse source name = .error e → e.cause ≠ .lexical fault := by
  refine ⟨?_, fun fault h => parse_of_tokenize_error h name, fun toks h => ?_⟩
  · rintro (⟨c, h⟩ | ⟨e, keyword, openTag, h, hcause⟩)
    · exact tokenize_of_parse h
    · exact tokenize_of_unclosed h hcause
  · obtain ⟨houtcome, hevents⟩ := templateRun_agrees h
    refine ⟨by rw [parse, houtcome], hevents, fun e fault he hcause => ?_⟩
    obtain ⟨cause, hrun, rfl⟩ := templateRun_of_parse_error he
    obtain rfl : cause = .lexical fault := hcause
    rw [houtcome] at hrun
    exact batchRun_ne_lexical source toks fault hrun

/-- A tag that goes wrong before a character that begins no lexeme, and a tag
whose block is left open. -/
theorem parse_agrees_stopped :
    (tokenize "<?cs set:a b ~ ?>" = .error ⟨.arguments, '~', 13⟩ ∧
      ∃ e, parse "<?cs set:a b ~ ?>" [] = .error e ∧
        (e = (Fault.lexical ⟨.arguments, '~', 13⟩).located "<?cs set:a b ~ ?>" [] ∨
          ∃ expected found, e.cause = .unexpected expected found ∧ e.offset < 13)) ∧
    ∃ toks, tokenize "<?cs if:a ?>" = .ok toks ∧
      parse "<?cs if:a ?>" [] =
        (batchRun "<?cs if:a ?>" toks).outcome.mapError (·.located "<?cs if:a ?>" []) := by
  have hstopped : tokenize "<?cs set:a b ~ ?>" = .error ⟨.arguments, '~', 13⟩ :=
    eq_error_of_failure? (by decide +kernel)
  have hopen : parse "<?cs if:a ?>" [] =
      .error ⟨.unclosed ⟨.keyword .ifTag, "if", 5⟩ ⟨.tagOpen, "<?cs ", 0⟩, 0, 1, 1, []⟩ :=
    eq_error_of_failure? (by decide +kernel)
  obtain ⟨toks, htoks⟩ := (parse_agrees "<?cs if:a ?>" []).1 (.inr ⟨_, _, _, hopen, rfl⟩)
  exact ⟨⟨hstopped, (parse_agrees "<?cs set:a b ~ ?>" []).2.1 _ hstopped⟩,
    toks, htoks, ((parse_agrees "<?cs if:a ?>" []).2.2 toks htoks).1⟩

end ClearSilver
