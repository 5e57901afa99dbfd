/-
# What a parse says of its source

The tokens of a source are lexical, so those that run through the stages of a
sentence are proper (`Lexical.run`). The script of templates, fed with them,
reads a body up to the end (`Script.template_obeys`). Hence a template that
parses has tokens that match a body with the end behind them, and a canonical
tree (`templateRun_ok`); and where a parse stops at a token or a character, the
tokens before it lead to a body (`templateRun_error`).

Key theorems: `Lexical.run`, `Script.template_obeys`, `templateRun_ok`,
`templateRun_error`.
-/
import ClearSilver.Parse
import ClearSilver.Proofs.Grammar.Stage
import ClearSilver.Proofs.Parser.CommandReads
import ClearSilver.Proofs.Scan.Stream

namespace ClearSilver

/-! ### Lexical tokens are proper -/

/-- No literal text follows literal text. -/
theorem Lexical.apart {mode : Mode} (us vs : List Token) {a b : Token}
    (h : Lexical mode (us ++ a :: b :: vs)) (ha : a.kind = .data) : b.kind ≠ .data := by
  obtain ⟨mode', h⟩ := h.tail
  exact h.2.1 ha b rfl

theorem Stage.mode_of_step_word {st st' : Stage} (h : st.step .word = some st') :
    st.mode = .arguments := by
  cases st <;> first | rfl | cases h

/-- **What runs through the stages of a sentence is proper**, and what follows
is lexical in the mode of the stage reached. -/
theorem Lexical.run : ∀ {us vs : List Token} {st st' : Stage}, Lexical st.mode (us ++ vs) →
    st.run (us.map (·.kind)) = some st' → .eof ∉ us.map (·.kind) →
      (∀ tok ∈ us, tok.IsProper) ∧ Lexical st'.mode vs
  | [], _, _, _, h, hrun, _ => by
    cases hrun
    exact ⟨by simp, h⟩
  | tok :: us, vs, st, st', h, hrun, heof => by
    obtain ⟨s, hs, hrun⟩ := Option.bind_eq_some_iff.mp hrun
    rw [List.map_cons, List.mem_cons, not_or] at heof
    obtain ⟨htok, -, h⟩ := h
    rw [← Stage.step_mode hs] at h
    obtain ⟨hus, hvs⟩ := Lexical.run h hrun heof.2
    refine ⟨List.forall_mem_cons.mpr ⟨⟨st.mode, ?_, fun hk => ?_⟩, hus⟩, hvs⟩
    · exact htok.resolve_left fun h => heof.1 h.symm
    · change st.step tok.kind = some s at hs
      rw [hk] at hs
      exact Stage.mode_of_step_word hs

/-- The tokens of a body are proper, and content follows them. -/
theorem Lexical.commands {us vs : List Token} (h : Lexical .content (us ++ vs))
    (hus : (Form.phrase .commands).Matches us) :
    .eof ∉ us.map (·.kind) ∧ Proper us ∧ Lexical .content vs := by
  have hrun := Form.Derives.run_commands hus
  have heof := Stage.eof_not_mem_of_run hrun (by decide)
  obtain ⟨hproper, hvs⟩ : (∀ tok ∈ us, tok.IsProper) ∧ Lexical .content vs :=
    @Lexical.run us vs .content .content h hrun heof
  refine ⟨heof, ⟨hproper, fun xs a b ys hts => ?_⟩, hvs⟩
  rw [hts, List.append_assoc] at h
  exact Lexical.apart xs (ys ++ vs) h

/-- What leads to a body holds no end. -/
theorem Form.Leads.eof_not_mem {ts : List Token} (h : (Form.phrase .commands).Leads ts) :
    .eof ∉ ts.map (·.kind) := by
  obtain ⟨more, -, hd⟩ := h
  have heof := Stage.eof_not_mem_of_run hd.run_commands (by decide)
  exact fun hmem => heof (List.mem_append_left _ hmem)

/-! ### The script of templates -/

namespace Script

theorem within_commands_append : (Form.both (.phrase .commands) (.phrase .commands)).Within
    (.phrase .commands) := by
  have hform : (Form.phrase .commands).Within Phrase.commands.form := by
    intro ks h
    cases h with
    | phrase h => exact h
  exact ((hform.both hform).trans (Form.within_many_append _)).trans (Form.within_phrase .commands)

/-- After a body whose siblings end before the end stands the opening of a tag. -/
theorem tagOpen_of_rest {tok : Token} {ts : List Token} (h : Lexical .content (tok :: ts))
    (hd : tok.kind ≠ .data) (he : tok.kind ≠ .eof) : tok.kind = .tagOpen := by
  have hx := h.1.resolve_left he
  cases hk : tok.kind <;> rw [hk] at hx hd <;> first | rfl | exact absurd rfl hd | exact hx.elim

/-- What a template does with a tag that belongs to no block. -/
def misplacedTag : List Token → Fed Command
  | [] => .waiting
  | tok :: _ => .failed (.unexpected .commandOrEnd tok)

/-- What a template does behind its body. -/
def templateEnd (cs : List Command) : List Token → Fed Command
  | [] => .waiting
  | tok :: rest =>
    if tok.kind = .eof then .gave (.ofList cs) (tok :: rest) else misplacedTag rest

theorem feed_template (place : Nat → Position) (budget : Nat) (ts : List Token) :
    (template place budget).feed ts = ((siblings place budget).feed ts).andThen templateEnd := by
  unfold template
  refine (feed_bind _ _ _).trans ?_
  rw [commands, feed_marked]
  congr
  funext cs rest
  cases rest with
  | nil => rfl
  | cons tok rest =>
    refine (feed_ask _ _ _ _).trans ?_
    by_cases he : tok.kind = .eof
    · rw [templateEnd, if_pos he, decide_eq_true (List.mem_singleton.mpr he)]
      rfl
    · rw [templateEnd, if_neg he, decide_eq_false (mt List.mem_singleton.mp he)]
      cases rest <;> rfl

/-- **A template reads a body**, fed with tokens that are lexical. -/
theorem template_obeys (place : Nat → Position) (budget : Nat) {ts : List Token}
    (hl : Lexical .content ts) :
    ((template place budget).feed ts).Obeys (.phrase .commands) (fun _ c => c.Canonical) ts := by
  have ho := siblings_reads place budget ts
  have hrest := @siblings_rest place budget ts
  rw [feed_template]
  generalize (siblings place budget).feed ts = fed at ho hrest
  cases ho with
  | @gave cs used rest hts hf hP =>
    subst hts
    obtain ⟨-, -, hvs⟩ := hl.commands hf
    rw [Fed.andThen]
    cases rest with
    | nil =>
      rw [List.append_nil]
      exact .waiting hf.leads
    | cons tok rest =>
      rw [templateEnd]
      split
      · exact .gave rfl hf fun hu => Command.canonical_ofList (hP hu).tidy
      · -- a tag stands here, and a comment would be one
        have htok := tagOpen_of_rest hvs (hrest rfl) ‹_›
        have hleads : (Form.phrase .commands).Leads (used ++ [tok]) :=
          ((leads_tagOpen htok).behind hf).within within_commands_append
        cases rest with
        | nil => exact .waiting hleads
        | cons tok' rest =>
          have hcut : used ++ tok :: tok' :: rest = (used ++ [tok]) ++ tok' :: rest := by simp
          exact .unexpected hcut hleads
  | unexpected hts hf => exact .unexpected hts hf
  | unclosed keyword openTag => exact .unclosed keyword openTag
  | exhausted => exact .exhausted
  | waiting hf => exact .waiting hf

theorem template_rest {place : Nat → Position} {budget : Nat} {ts rest : List Token} {c : Command}
    (h : (template place budget).feed ts = .gave c rest) :
    ∃ tok rest', rest = tok :: rest' ∧ tok.kind = .eof := by
  rw [feed_template] at h
  cases hfed : (siblings place budget).feed ts with
  | gave cs rest' =>
    rw [hfed, Fed.andThen] at h
    cases rest' with
    | nil => cases h
    | cons tok rest' =>
      rw [templateEnd] at h
      split at h
      · cases h
        exact ⟨tok, rest', rfl, ‹_›⟩
      · cases rest' <;> cases h
  | failed fault =>
    rw [hfed] at h
    cases h
  | waiting =>
    rw [hfed] at h
    cases h

end Script

/-! ### Runs over a source -/

/-- What a computation fails with. -/
def failure? {ε α : Type} : Except ε α → Option ε
  | .error e => some e
  | .ok _ => none

theorem eq_error_of_failure? {ε α : Type} {r : Except ε α} {e : ε} (h : failure? r = some e) :
    r = .error e := by
  cases r with
  | ok a => cases h
  | error e' => rw [Option.some.inj h]

theorem eq_ok_of_toOption {ε α : Type} {r : Except ε α} {a : α} (h : r.toOption = some a) :
    r = .ok a := by
  cases r with
  | ok b => rw [Option.some.inj h]
  | error e => cases h

theorem exists_ok_of_toOption {ε α β : Type} {r : Except ε α} {f : α → β} {b : β}
    (h : r.toOption.map f = some b) : ∃ a, r = .ok a ∧ f a = b := by
  cases r with
  | ok a => exact ⟨a, rfl, Option.some.inj h⟩
  | error e => cases h

theorem ne_eof_of_not_mem {ts : List Token} (h : .eof ∉ ts.map (·.kind)) :
    ∀ tok ∈ ts, tok.kind ≠ .eof :=
  fun _ htok hk => h (hk ▸ List.mem_map_of_mem htok)

/-- What a scanner gives that is the end is the end of its source. -/
theorem Scanner.next_eof {s last : Scanner} {tok : Token} (h : s.next = (.ok tok, last))
    (hk : tok.kind = .eof) : tok = Token.atEnd s.source.length := by
  cases Scanner.gives_of_next h with
  | lexeme _ _ hx hr => exact absurd hk (hx.ne_nil hr).2
  | atEnd _ => rfl

section

variable {ε ε' α : Type} {r : Except ε α} {f : ε → ε'}

theorem eq_ok_of_mapError {a : α} (h : r.mapError f = .ok a) : r = .ok a := by
  cases r with
  | ok a' => exact congrArg Except.ok (Except.ok.inj h)
  | error e => cases h

theorem exists_error_of_mapError {e : ε'} (h : r.mapError f = .error e) :
    ∃ e', r = .error e' ∧ e = f e' := by
  cases r with
  | ok a => cases h
  | error e' => exact ⟨e', rfl, (Except.error.inj h).symm⟩

end

theorem templateRun_of_parse {source name : Text} {c : Command} (h : parse source name = .ok c) :
    (templateRun source).outcome = .ok c := eq_ok_of_mapError h

theorem templateRun_of_parse_error {source name : Text} {e : ParseError}
    (h : parse source name = .error e) :
    ∃ fault, (templateRun source).outcome = .error fault ∧ e = fault.located source name :=
  exists_error_of_mapError h

/-- **A template that parses** has tokens that match a body with the end
behind them, and a canonical tree. -/
theorem templateRun_ok {source : Text} {c : Command}
    (h : (templateRun source).outcome = .ok c) : ∃ used s last,
      Pulls (Scanner.start source .content) used s ∧ (Form.phrase .commands).Matches used ∧
      .eof ∉ used.map (·.kind) ∧ s.next = (.ok (Token.atEnd source.length), last) ∧
      c.Canonical ∧ ∃ rest, (Script.template (.among (lineStarts source)) (budgetFor source)).feed
        (used ++ rest) = .gave c rest := by
  obtain ⟨toks, src, hp, hrun⟩ := Script.run_feed
    (.template (.among (lineStarts source)) (budgetFor source))
    (.start (Scanner.start source .content))
  simp only [Lookahead.start, List.nil_append] at hp hrun
  have hl := hp.lexical
  have ho := Script.template_obeys (.among (lineStarts source)) (budgetFor source) hl
  generalize hfed :
    (Script.template (.among (lineStarts source)) (budgetFor source)).feed toks = fed
    at ho hrun
  rw [templateRun, Lookahead.start] at h
  cases hrun with
  | failed hf =>
    rw [hf] at h
    cases h
  | waiting hf _ =>
    rw [hf] at h
    cases h
  | @gave a rest ha _ =>
    rw [ha] at h
    cases h
    obtain ⟨tok, rest', rfl, htok⟩ := Script.template_rest hfed
    cases ho with
    | @gave _ used _ hts hf hP =>
      subst hts
      obtain ⟨heof, hproper, -⟩ := hl.commands hf
      obtain ⟨s, hused, hs⟩ := hp.split
      cases hs with
      | more hnext _ =>
        have hsource := (hused.lexes (ne_eof_of_not_mem heof)).1
        obtain rfl := Scanner.next_eof hnext htok
        rw [hsource] at hnext
        exact ⟨used, s, _, hused, hf, heof, hnext, hP hproper, _, hfed⟩

/-- What stands before the offset of a token or of a fault: what was read, and
what is passed over. -/
theorem take_offset {s : Scanner} {b r : Text} (h : s.rest = b ++ r) :
    s.source.take (s.pos + b.length) = s.source.take s.pos ++ b := by
  rw [List.take_add, ← Scanner.rest, h, List.take_left]

/-- A token begins behind what was read and what is passed over. -/
theorem Scanner.take_offset_token {s last : Scanner} {tok : Token}
    (h : s.next = (.ok tok, last)) : ∃ b r, s.rest = b ++ r ∧ s.mode.Skips b ∧
      s.source.take tok.offset = s.source.take s.pos ++ b := by
  cases Scanner.gives_of_next h with
  | lexeme ht hb _ _ => exact ⟨_, _, ht, hb, take_offset ht⟩
  | atEnd hb =>
    refine ⟨s.rest, [], by simp, hb, ?_⟩
    rw [Token.atEnd, Scanner.rest, List.take_append_drop, List.take_length]

/-- A character that begins no token stands there too. -/
theorem Scanner.take_offset_fault {s last : Scanner} {fault : LexicalFault}
    (h : s.next = (.error fault, last)) : ∃ b r, s.rest = b ++ r ∧ s.mode.Skips b ∧
      s.source.take fault.offset = s.source.take s.pos ++ b := by
  obtain ⟨b, c, r, ht, hb, rfl, -⟩ := Scanner.stuck_of_next h
  exact ⟨b, _, ht, hb, take_offset ht⟩

/-- **Where a template stops** at a token or a character, the tokens before it
lead to a body, and nothing but what the scanner passes over is in between. -/
theorem templateRun_error {source : Text} {fault : Fault}
    (h : (templateRun source).outcome = .error fault)
    (hfault : (∃ f, fault = .lexical f) ∨ ∃ expected found, fault = .unexpected expected found) :
    ∃ toks s b r, Pulls (Scanner.start source .content) toks s ∧
      (Form.phrase .commands).Leads toks ∧ s.source = source ∧ s.rest = b ++ r ∧ s.mode.Skips b ∧
      source.take fault.offset = source.take s.pos ++ b := by
  obtain ⟨toks, src, hp, hrun⟩ := Script.run_feed
    (.template (.among (lineStarts source)) (budgetFor source))
    (.start (Scanner.start source .content))
  simp only [Lookahead.start, List.nil_append] at hp hrun
  have ho := Script.template_obeys (.among (lineStarts source)) (budgetFor source) hp.lexical
  generalize (Script.template (.among (lineStarts source)) (budgetFor source)).feed toks = fed
    at ho hrun
  rw [templateRun, Lookahead.start] at h
  cases hrun with
  | gave ha _ =>
    rw [ha] at h
    cases h
  | @waiting f src' hf hpull =>
    rw [hf] at h
    cases h
    cases ho with
    | waiting hleads =>
      have hsource := (hp.lexes (ne_eof_of_not_mem hleads.eof_not_mem)).1
      obtain ⟨b, r, hr, hb, hoffset⟩ := Scanner.take_offset_fault hpull
      rw [hsource] at hoffset
      exact ⟨toks, src, b, r, hp, hleads, hsource, hr, hb, hoffset⟩
  | failed hf =>
    rw [hf] at h
    cases h
    cases ho with
    | unclosed _ _ | exhausted => rcases hfault with ⟨_, h⟩ | ⟨_, _, h⟩ <;> cases h
    | @unexpected expected found before after hts hleads =>
      subst hts
      obtain ⟨s, hbefore, hs⟩ := hp.split
      have hsource := (hbefore.lexes (ne_eof_of_not_mem hleads.eof_not_mem)).1
      cases hs with
      | more hnext _ =>
        obtain ⟨b, r, hr, hb, hoffset⟩ := Scanner.take_offset_token hnext
        rw [hsource] at hoffset
        exact ⟨before, s, b, r, hbefore, hleads, hsource, hr, hb, hoffset⟩

end ClearSilver
