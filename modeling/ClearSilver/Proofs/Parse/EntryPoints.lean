/-
# A bare expression and an output tag

An expression is parsed alone or as what an output tag holds. In the tag it
stands behind a delimiter, which takes the blanks at its beginning, and before a
blank and the end of the tag. Nothing that makes no word and no symbol longer
changes the lexemes before it (`Lexes.within`), so they are the same there
(`Lexes.with_end`), and no lexeme of the arguments ends with a blank, so they lie
in the text of the expression (`Lexes.without_end`): the two ways to parse an
expression agree (`parseExpression_iff_parse_var`).

Key definitions: `Text.EndsArguments`, `ReadWithin`.
Key theorems: `Lexes.within`, `Lexes.with_end`, `Lexes.without_end`,
`parseExpression_of_lexes`, `parse_output_of_expression`, `parseExpression_of_output`,
`parseExpression_iff_parse_var`.
-/
import ClearSilver.Proofs.Parse.Bare
import ClearSilver.Proofs.Parse.Behind
import ClearSilver.Proofs.Parser.Encloses
import ClearSilver.Proofs.Written.Command

namespace ClearSilver

open Form

variable {m m' : Mode} {k : Token.Kind} {x e r t t' w : Text} {ls ls' : List Lexeme}

/-! ### The arguments of a tag and their end -/

namespace Mode

/-- A text without blanks ends with none. -/
theorem exists_last_of_plain (hne : x ≠ []) (h : ∀ c ∈ x, isBlank c = false) :
    ∃ y c, x = y ++ [c] ∧ isBlank c = false :=
  ⟨x.dropLast, x.getLast hne, (List.dropLast_append_getLast hne).symm, h _ (List.getLast_mem hne)⟩

theorem exists_last_of_word (h : IsArgumentWord x) : ∃ y c, x = y ++ [c] ∧ isBlank c = false := by
  refine exists_last_of_plain h.1 fun c hc => ?_
  have hword := List.all_eq_true.mp h.2 c hc
  cases hb : isBlank c with
  | false => rfl
  | true =>
    rw [Stage.not_isWordChar_of_isBlank hb] at hword
    cases hword

/-- No lexeme among the arguments ends with a blank. -/
theorem IsLexeme.exists_last (hx : arguments.IsLexeme k x) :
    ∃ y c, x = y ++ [c] ∧ isBlank c = false := by
  cases k <;> try exact False.elim hx
  case tagClose =>
    obtain rfl : x = "?>" := hx
    exact ⟨"?", '>', rfl, rfl⟩
  case string =>
    obtain ⟨q, w, hq, -, rfl⟩ := hx
    exact ⟨q :: w, q, rfl, by rcases hq with rfl | rfl <;> rfl⟩
  case decimal => exact exists_last_of_word (isArgumentWord_of_isDecimalWord hx)
  case hex => exact exists_last_of_word (isArgumentWord_of_isHexWord hx).1
  case word => exact exists_last_of_word (isPlainWord_iff.mp hx).1
  case symbol s =>
    obtain rfl : x = s.text := hx
    have hplain : s.text.all (fun c => !isBlank c) = true := by cases s <;> rfl
    refine exists_last_of_plain (by cases s <;> simp [Symbol.text]) fun c hc => ?_
    simpa using List.all_eq_true.mp hplain c hc

end Mode

theorem Stage.mode_of_step_arguments {st : Stage} (h : st.step k = some .arguments) :
    st.mode = .arguments := by
  unfold step at h
  split at h <;> first | rfl | cases h

/-- What an expression is read from does not end with a blank. -/
theorem Lexes.exists_last (h : Lexes .arguments t ls m' t')
    (hrun : Stage.begun.run (ls.map Prod.fst) = some .arguments) :
    ∃ p c, t = p ++ c :: t' ∧ isBlank c = false := by
  rcases List.eq_nil_or_concat ls with rfl | ⟨ls, ⟨k, x⟩, rfl⟩
  · cases hrun
  · rw [List.concat_eq_append] at h hrun
    rw [List.map_append, Stage.run_append] at hrun
    obtain ⟨st, hst, hlast⟩ := Option.bind_eq_some_iff.mp hrun
    obtain ⟨st', hstep, hend⟩ := Option.bind_eq_some_iff.mp hlast
    obtain rfl := Option.some.inj hend
    obtain ⟨m₁, t₁, hfront, hback⟩ := h.split
    obtain ⟨p, rfl, -⟩ := hfront.splice hfront.lastEnds
    change Lexes Stage.begun.mode _ _ _ _ at hfront
    obtain rfl := Stage.mode_of_run hfront hst
    rw [Stage.mode_of_step_arguments hstep] at hback
    cases hback with
    | @more _ _ _ b _ _ _ _ _ hx _ hnone =>
      cases hnone
      obtain ⟨y, c, rfl, hc⟩ := hx.exists_last
      exact ⟨p ++ (b ++ y), c, by simp, hc⟩

/-! ### Where arguments end -/

/-- Does the text make no word and no symbol before it longer? -/
def Text.EndsArguments (u : Text) : Prop := u.Stops isWordChar ∧ ∀ s : Symbol, u.Stops s.grows

namespace Text.EndsArguments

theorem nil : Text.EndsArguments [] := ⟨trivial, fun _ => trivial⟩

theorem of_blank {c : Char} (hc : isBlank c = true) (u : Text) : Text.EndsArguments (c :: u) :=
  ⟨Stage.not_isWordChar_of_isBlank hc, Stage.not_grows_of_isBlank hc⟩

theorem of_blanks (hr : r.all isBlank = true) (hne : r ≠ []) (u : Text) :
    Text.EndsArguments (r ++ u) := by
  cases r with
  | nil => exact absurd rfl hne
  | cons c r => exact of_blank (Bool.and_eq_true _ _ ▸ List.all_cons ▸ hr).1 (r ++ u)

theorem behind_blanks (h : Text.EndsArguments t) (hr : r.all isBlank = true) :
    Text.EndsArguments (r ++ t) := by
  by_cases hne : r = []
  · rwa [hne]
  · exact of_blanks hr hne t

end Text.EndsArguments

/-- The last lexeme of an expression ends where nothing makes it longer. -/
theorem Stage.lastEnds_arguments (hrun : Stage.begun.run (ls.map Prod.fst) = some .arguments)
    (ht : Text.EndsArguments t) : Mode.arguments.LastEnds ls t := by
  have hends : ∀ {st : Stage} {k : Token.Kind} (x : Text), st.step k = some .arguments →
      st.mode.Ends k x t := by
    intro st k x h
    rw [mode_of_step_arguments h]
    cases k <;> first | trivial | exact ht.1 | exact ht.2 _
  have hlast : Stage.begun.mode.LastEnds ls t := Stage.lastEnds_of_ends hends hrun
  exact hlast

/-- Is the text read as these lexemes within a longer one, wherever nothing makes
the last one longer, with blanks at its end? -/
def ReadWithin (t : Text) (ls : List Lexeme) : Prop :=
  ∀ u, Text.EndsArguments u →
    ∃ r, r.all isBlank = true ∧ Lexes .arguments (t ++ u) ls .arguments (r ++ u)

/-- What is read as an expression alone is read so within a longer text. -/
theorem Lexes.within (h : Lexes .arguments t ls .arguments r) (hr : r.all isBlank = true)
    (hrun : Stage.begun.run (ls.map Prod.fst) = some .arguments) : ReadWithin t ls :=
  fun _ hu => ⟨r, hr, h.extend (Stage.lastEnds_arguments hrun (hu.behind_blanks hr))⟩

/-! ### The end of a tag -/

/-- **The end of a tag can stand behind an expression**, with a blank between
them. -/
theorem Lexes.with_end (h : Lexes .arguments e ls .arguments r) (hr : r.all isBlank = true)
    (hrun : Stage.begun.run (ls.map Prod.fst) = some .arguments) :
    Lexes .arguments (e ++ " ?>") (ls ++ [Lexeme.tagEnd]) .content [] := by
  obtain ⟨b, hb, hfront⟩ := h.within hr hrun " ?>" (.of_blank rfl "?>")
  have hend := (lexes_end []).skip (b := b) ⟨hb, by simp⟩ (by simp)
  rw [List.append_nil] at hend
  exact hfront.append hend

/-- A text whose last character is not the one before some others ends with
them. -/
theorem eq_append_of_last_ne {p b : Text} {c d : Char} (h : e ++ [d] = p ++ c :: b) (hne : d ≠ c) :
    ∃ b', b = b' ++ [d] ∧ e = p ++ c :: b' := by
  rcases List.eq_nil_or_concat b with rfl | ⟨b', d', rfl⟩
  · exact absurd (List.cons.inj (List.append_inj' h rfl).2).1 hne
  · have hcut : e ++ [d] = (p ++ c :: b') ++ [d'] := by simpa using h
    obtain ⟨he, hd⟩ := List.append_inj' hcut rfl
    obtain rfl := (List.cons.inj hd).1
    exact ⟨b', by simp, he⟩

/-- **Without the end of its tag** an expression is read from its own text. -/
theorem Lexes.without_end (h : Lexes .arguments (e ++ " ?>") (ls ++ [(.tagClose, x)]) .content [])
    (hrun : Stage.begun.run (ls.map Prod.fst) = some .arguments) :
    ∃ r, Lexes .arguments e ls .arguments r ∧ r.all isBlank = true := by
  obtain ⟨m₁, t₁, hfront, hback⟩ := h.split
  obtain rfl : m₁ = .arguments := by
    change Lexes Stage.begun.mode _ _ _ _ at hfront
    exact Stage.mode_of_run hfront hrun
  -- the end of the tag stands behind blanks
  cases hback with
  | @more _ _ _ b _ _ _ _ hb hx _ hnone =>
    cases hnone
    obtain rfl : x = "?>" := hx
    rw [List.append_nil] at hfront
    obtain ⟨p, c, hp, hc⟩ := hfront.exists_last hrun
    have hcut : e ++ " " = p ++ c :: b := by
      have hall : (e ++ " ") ++ "?>" = (p ++ c :: b) ++ "?>" := by
        rw [List.append_assoc]
        simpa using hp
      exact List.append_cancel_right hall
    obtain ⟨b', rfl, rfl⟩ := eq_append_of_last_ne hcut (by rintro rfl; cases hc)
    have hb' : b'.all isBlank = true := (Bool.and_eq_true _ _ ▸ List.all_append ▸ hb.1).1
    have hends := Stage.lastEnds_arguments hrun (Text.EndsArguments.nil.behind_blanks hb')
    rw [List.append_nil] at hends
    obtain ⟨p', hp', hlexes⟩ := hfront.splice hends
    have hsame : p' = p ++ [c] := by
      refine List.append_cancel_right (hp'.symm.trans ?_)
      rw [hp]
      simp
    rw [hsame, List.append_assoc] at hlexes
    exact ⟨b', hlexes, hb'⟩

/-- A delimiter takes the blanks behind it. -/
theorem lexes_delimited (h : Lexes .arguments w ls m' t') (hne : ls ≠ []) :
    ∃ b, Lexes .command (':' :: w) ((.softDelimiter, b) :: ls) m' t' := by
  cases h with
  | none => exact absurd rfl hne
  | @more _ _ k b x r _ _ hb hx hr h =>
    have hstop := hx.stops_isBlank r
    have hdelimiter : Mode.command.IsLexeme .softDelimiter (':' :: b) :=
      .inl ⟨[], b, rfl, hb.1, rfl⟩
    have hends : Mode.command.Ends .softDelimiter (':' :: b) (x ++ r) :=
      ⟨hstop, fun hall => by cases hall⟩
    exact ⟨_, Lexes.more (Mode.skips_nil _) hdelimiter hends
      (Lexes.more (Mode.skips_nil _) hx hr h)⟩

/-- What stands behind a delimiter with the blanks that it takes. -/
theorem Lexes.of_delimited (h : Lexes .command (':' :: w) ((.softDelimiter, x) :: ls) m' t')
    (hne : ls ≠ []) : Lexes .arguments w ls m' t' := by
  generalize hw : ':' :: w = v at h
  cases h with
  | @more _ _ _ b _ r _ _ hb hx _ h =>
    obtain rfl := hb.2 (by simp)
    rw [List.nil_append] at hw
    rcases hx with ⟨b, b', hb, hb', rfl⟩ | ⟨hnil, hall⟩
    · cases b with
      | nil =>
        obtain rfl := (List.cons.inj hw).2
        exact h.skip ⟨hb', fun h => absurd rfl h⟩ fun hnil => absurd hnil hne
      | cons c b =>
        rw [← (List.cons.inj hw).1] at hb
        cases hb
    · cases x with
      | nil => exact absurd rfl hnil
      | cons c x =>
        rw [← (List.cons.inj hw).1] at hall
        cases hall

/-! ### The head of an output tag -/

/-- A tag around some arguments opens and says its keyword. -/
theorem pulls_head (k : Keyword) (w : Text) : ∃ o kw pos,
    Pulls (Scanner.start ("<?cs " ++ (k.text ++ ':' :: w)) .content) [o, kw]
      ⟨"<?cs " ++ (k.text ++ ':' :: w), pos, .command⟩ ∧
    o.kind = .tagOpen ∧ o.offset = 0 ∧ kw.kind = .keyword k ∧
    (⟨"<?cs " ++ (k.text ++ ':' :: w), pos, .command⟩ : Scanner).rest = ':' :: w := by
  have hlexes : Lexes .content ("<?cs " ++ (k.text ++ ':' :: w))
      [Lexeme.tagOpen, Lexeme.keyword k] .command (':' :: w) :=
    lexes_tagOpen (k.stops_isBlank _) (lexes_keyword k rfl (.none _ _))
  obtain ⟨toks, pos, hp, htoks, hrest⟩ := hlexes.pulls _ 0 rfl
  obtain ⟨o, toks, rfl, ho, htoks⟩ := List.map_eq_cons_iff.mp htoks
  obtain ⟨kw, toks, rfl, hkw, htoks⟩ := List.map_eq_cons_iff.mp htoks
  obtain rfl := List.map_eq_nil_iff.mp htoks
  have hoffset := (hp.tiles (Nat.zero_le _)).1.head_offset (by simp)
  exact ⟨o, kw, pos, hp, congrArg Prod.fst ho, Option.some.inj hoffset, congrArg Prod.fst hkw,
    hrest⟩

theorem headWritten_eq (k : Keyword) (e : Text) :
    headWritten k e = "<?cs " ++ (k.text ++ ':' :: (e ++ " ?>")) := by
  change "<?cs " ++ (k.text ++ ':' :: e) ++ " ?>" = _
  rw [List.append_assoc, List.append_assoc, List.cons_append]

/-- The tokens of a tag around an expression: its own stand between the
delimiter and the end. -/
theorem pulls_expression (k : Keyword) (h : Lexes .arguments e ls .arguments r)
    (hr : r.all isBlank = true) (hrun : Stage.begun.run (ls.map Prod.fst) = some .arguments) :
    ∃ o kw d us c pos, Pulls (Scanner.start (headWritten k e) .content)
        (o :: kw :: d :: (us ++ [c])) ⟨headWritten k e, pos, .content⟩ ∧
      (⟨headWritten k e, pos, .content⟩ : Scanner).rest = [] ∧ o.kind = .tagOpen ∧
      o.offset = 0 ∧ kw.kind = .keyword k ∧ d.kind = .softDelimiter ∧
      us.map Token.lexeme = ls ∧ c.kind = .tagClose := by
  rw [headWritten_eq]
  obtain ⟨o, kw, pos, hhead, ho, hoffset, hkw, hrest⟩ := pulls_head k (e ++ " ?>")
  obtain ⟨b, hlexes⟩ := lexes_delimited (h.with_end hr hrun) (by simp)
  obtain ⟨toks, pos', htail, htoks, hnil⟩ := hlexes.pulls _ pos hrest
  obtain ⟨d, toks, rfl, hd, htoks⟩ := List.map_eq_cons_iff.mp htoks
  obtain ⟨us, toks, rfl, hus, htoks⟩ := List.map_eq_append_iff.mp htoks
  obtain ⟨c, toks, rfl, hc, htoks⟩ := List.map_eq_cons_iff.mp htoks
  obtain rfl := List.map_eq_nil_iff.mp htoks
  exact ⟨o, kw, d, us, c, _, hhead.append htail, hnil, ho, hoffset, hkw, congrArg Prod.fst hd, hus,
    congrArg Prod.fst hc⟩

/-- What matches an expression runs to the arguments. -/
theorem run_of_matches {us : List Token} (hm : Form.expression.Matches us) :
    Stage.begun.run ((us.map Token.lexeme).map Prod.fst) = some .arguments := by
  rw [map_lexeme_fst]
  exact hm.run_expression

/-- No end stands between a delimiter and the end of its tag. -/
theorem ne_eof_delimited {d c : Token} {us : List Token} (hd : d.kind = .softDelimiter)
    (hm : Form.expression.Matches us) (hc : c.kind = .tagClose) :
    ∀ tok ∈ d :: (us ++ [c]), tok.kind ≠ .eof := by
  have hne := ne_eof_of_not_mem hm.leads.eof_not_mem_expression
  refine List.forall_mem_cons.mpr ⟨by simp [hd], List.forall_mem_append.mpr ⟨hne, ?_⟩⟩
  simp [hc]

/-- Behind its keyword a tag goes on with its delimiter. -/
theorem pulls_behind_keyword {k : Keyword} {o kw : Token} {ts : List Token} {s : Scanner}
    (hp : Pulls (Scanner.start (headWritten k e) .content) (o :: kw :: ts) s) :
    kw.kind = .keyword k ∧ ∃ s', Pulls s' ts s ∧ s'.mode = .command ∧
      s'.rest = ':' :: (e ++ " ?>") := by
  rw [headWritten_eq] at hp
  obtain ⟨o', kw', pos, hhead, -, -, hkw, hrest⟩ := pulls_head k (e ++ " ?>")
  rcases hhead.compare hp with ⟨vs, hvs, htail⟩ | ⟨vs, hvs, htail⟩
  · obtain ⟨-, rfl, rfl⟩ : o = o' ∧ kw = kw' ∧ ts = vs := by simpa using hvs
    exact ⟨hkw, _, htail, rfl, hrest⟩
  · obtain ⟨-, rfl, rfl, rfl⟩ : o' = o ∧ kw' = kw ∧ ts = [] ∧ vs = [] := by simpa using hvs
    cases htail
    exact ⟨hkw, _, .none _, rfl, hrest⟩

/-- The lexemes of an expression in a tag stand in its text. -/
theorem lexes_of_pulls {d c : Token} {us : List Token} {s s' : Scanner}
    (hp : Pulls s (d :: (us ++ [c])) s') (hmode : s.mode = .command)
    (hrest : s.rest = ':' :: (e ++ " ?>")) (hmode' : s'.mode = .content) (hnil : s'.rest = [])
    (hd : d.kind = .softDelimiter) (hm : Form.expression.Matches us) (hc : c.kind = .tagClose) :
    ∃ r, Lexes .arguments e (us.map Token.lexeme) .arguments r ∧ r.all isBlank = true := by
  have hlexes := (hp.lexes (ne_eof_delimited hd hm hc)).2
  rw [hmode, hrest, hmode', hnil, List.map_cons, List.map_append, List.map_singleton,
    Token.lexeme, hd] at hlexes
  have hclose : c.lexeme = (.tagClose, c.text) := by rw [Token.lexeme, hc]
  rw [hclose] at hlexes
  exact (hlexes.of_delimited (by simp)).without_end (run_of_matches hm)

/-! ### What an output tag is taken for -/

theorem Command.eq_singleton_of_output {cs : List Command} {form : OutputForm} {position : Position}
    {x : Expr} (h : .output form position x = ofList cs) : cs = [.output form position x] := by
  match cs, h with
  | [_], rfl => rfl

namespace Script

variable {place : Nat → Position} {budget : Nat} {form : OutputForm} {position : Position} {x : Expr}
  {o kw d c : Token} {us ts : List Token}

/-- An output tag is a body. -/
theorem siblings_output (ho : o.kind = .tagOpen) (hkw : kw.kind = .keyword form.keyword)
    (hd : d.kind = .softDelimiter)
    (hx : (expression (budget + 1)).Takes us x (Clear (Token.Kind.Extends levels)))
    (hc : c.kind = .tagClose) : (siblings place (budget + 2)).Takes (o :: kw :: d :: (us ++ [c]))
      [.output form (place o.offset) x] BodyEnds := by
  have hbegins : endsBody kw.kind = false := by
    rw [hkw]
    cases form <;> rfl
  have hcommand : (command place (budget + 1)).Takes (o :: kw :: d :: (us ++ [c]))
      (.output form (place o.offset) x) anyRest :=
    takes_output ho form hkw (headedTag_takes kw hd hx hc)
  have hbody := siblings_command ho hbegins hcommand (siblings_end place budget)
  rwa [List.append_nil] at hbody

/-- A command that is an output tag holds its expression. -/
theorem expression_of_output (ho : o.kind = .tagOpen) (hkw : kw.kind = .keyword form.keyword)
    (h : (command place budget).Takes (o :: kw :: ts) (.output form position x) anyRest)
    (hlt : ts.length < budget) : ∃ d us c, ts = d :: (us ++ [c]) ∧ d.kind = .softDelimiter ∧
      Form.expression.Matches us ∧ c.kind = .tagClose ∧
        (expression budget).Takes us x (Clear (Token.Kind.Extends levels)) := by
  -- the tag behind its keyword gives the expression and leaves nothing
  have hpasses : (command place budget).Passes [o, kw] _ anyRest :=
    commandOver_passes ho (tag?_output form hkw)
  have hfed := h [] trivial
  rw [List.append_nil] at hfed
  replace hfed := (hpasses ts trivial).symm.trans hfed
  rw [feed_bind] at hfed
  have hreads := headedTag_reads budget kw ts
  cases hhead : (headedTag budget kw).feed ts with
  | failed fault =>
    rw [hhead] at hfed
    cases hfed
  | waiting =>
    rw [hhead] at hfed
    cases hfed
  | gave y rest =>
    rw [hhead] at hfed hreads
    cases hfed
    cases hreads with
    | @gave _ used _ hts hm hP =>
      rw [List.append_nil] at hts
      subst hts
      obtain ⟨d, ys, hd, rfl, hys⟩ := matches_token_both.mp hm
      obtain ⟨us, zs, rfl, hus, hzs⟩ := matches_both.mp hys
      obtain ⟨c, hc, rfl⟩ := matches_token.mp hzs
      simp only [List.length_cons, List.length_append] at hlt
      obtain ⟨y, hy⟩ := expression_takes budget us hus (by omega)
      have hsame := (headedTag_takes kw hd hy hc) [] trivial
      rw [List.append_nil, hhead] at hsame
      cases hsame
      exact ⟨d, us, c, rfl, hd, hus, hc, hy⟩

end Script

/-! ### From the expression to the tag and back -/

/-- An expression that parses alone is read from its text as an expression, with
blanks behind it. -/
theorem lexes_of_parseExpression {name : Text} {x : Expr} (h : parseExpression e name = .ok x) :
    ∃ us r, Lexes .arguments e (us.map Token.lexeme) .arguments r ∧ r.all isBlank = true ∧
      Form.expression.Matches us ∧
      (Script.expression (budgetFor e)).Takes us x (Clear (Token.Kind.Extends levels)) := by
  obtain ⟨us, s, last, hp, hm, hn, htakes⟩ := expressionRun_ok (expressionRun_of_parse h)
  have hne := ne_eof_of_not_mem hm.leads.eof_not_mem_expression
  have hlexes : Lexes Stage.begun.mode e _ _ _ := (hp.lexes hne).2
  rw [Stage.mode_of_run hlexes (run_of_matches hm)] at hlexes
  exact ⟨us, s.rest, hlexes, (Scanner.skips_of_next hn rfl).1, hm, htakes⟩

/-- A text whose lexemes are taken for an expression is parsed as it. -/
theorem parseExpression_of_lexes {x : Expr} (h : Lexes .arguments t ls .arguments r)
    (hr : r.all isBlank = true)
    (hx : ∀ (ts : List Token) (budget : Nat), ts.map Token.lexeme = ls → ts.length < budget →
      (Script.expression budget).Takes ts x (Clear (Token.Kind.Extends levels)))
    (name : Text) : parseExpression t name = .ok x := by
  obtain ⟨ts, pos, hp, hts, hrest⟩ := h.pulls t 0 rfl
  have hend := Scanner.next_of_blanks (s := ⟨t, pos, .arguments⟩) rfl (hrest ▸ hr)
  have hlen := h.length_le
  rw [← hts, List.length_map] at hlen
  exact parseExpression_of_takes hp hend (hx ts _ hts (by rw [budgetFor]; omega)) name

/-- **An expression that parses alone** is what an output tag holds. -/
theorem parse_output_of_expression (form : OutputForm) {name : Text} {x : Expr}
    (h : parseExpression e name = .ok x) (name' : Text) :
    parse (headWritten form.keyword e) name' = .ok (.output form ⟨0, 1, 1⟩ x) := by
  obtain ⟨us, r, hlexes, hr, hm, htakes⟩ := lexes_of_parseExpression h
  obtain ⟨o, kw, d, us', c, pos, hp', hnil, ho, hoffset, hkw, hd, hsame, hc⟩ :=
    pulls_expression form.keyword hlexes hr (run_of_matches hm)
  have hm' : Form.expression.Matches us' := by
    rw [Form.Matches, ← map_lexeme_fst, hsame, map_lexeme_fst]
    exact hm
  -- the budget is greater than the number of the tokens
  have hlen := hp'.length_le (List.forall_mem_cons.mpr ⟨by simp [ho],
    List.forall_mem_cons.mpr ⟨by simp [hkw], ne_eof_delimited hd hm' hc⟩⟩)
  simp only [List.length_cons, List.length_append, List.length_nil] at hlen
  have htakes' : (Script.expression ((headWritten form.keyword e).length + 1)).Takes us' x _ :=
    htakes.of_lexemes hm hsame.symm (by omega)
  have hbody : (Script.siblings (.among (lineStarts (headWritten form.keyword e)))
      (budgetFor (headWritten form.keyword e))).Takes _ _ BodyEnds :=
    Script.siblings_output ho hkw hd htakes' hc
  rw [parse_of_siblings hp' (Scanner.next_of_rest_nil hnil) hbody name', hoffset]
  exact congrArg (fun p => Except.ok (Command.output form p x)) (Position.of_zero _)

/-- **What an output tag holds** is an expression that parses alone. -/
theorem parseExpression_of_output (form : OutputForm) {name : Text} {position : Position}
    {x : Expr} (h : parse (headWritten form.keyword e) name = .ok (.output form position x))
    (name' : Text) : parseExpression e name' = .ok x := by
  obtain ⟨us, cs, hparsed, hcs⟩ := parsedBody_of_parse h
  obtain rfl := Command.eq_singleton_of_output hcs
  have hlen := hparsed.length_le
  obtain ⟨hcommand, htakes⟩ :=
    Script.command_of_takes hparsed.body (by omega) hparsed.takes rfl
  obtain ⟨o, ws, ho, rfl, hws⟩ := matches_token_both.mp (matches_phrase.mp hcommand)
  obtain ⟨kw, ts, rfl, -⟩ : Script.CompletesTag (.among (lineStarts (headWritten form.keyword e))) _ _ ws :=
    Script.keyworded_of_matches
      (Script.siblings_takes (.among (lineStarts (headWritten form.keyword e))) ws.length).marked hws (Nat.le_refl _)
  obtain ⟨hkw, s, hp, hmode, hrest⟩ := pulls_behind_keyword hparsed.pulls
  simp only [List.length_cons] at hlen
  obtain ⟨d, us, c, rfl, hd, hm, hc, hx⟩ :=
    Script.expression_of_output ho hkw htakes (by omega)
  obtain ⟨r, hlexes, hr⟩ := lexes_of_pulls hp hmode hrest rfl List.drop_length hd hm hc
  exact parseExpression_of_lexes hlexes hr (fun _ _ hts hlt => hx.of_lexemes hm hts.symm hlt) name'

/-- **The two ways to parse an expression agree.** A bare expression is parsed
as a tree if and only if a `var` tag around it is parsed as that command alone,
at the beginning of the template. -/
theorem parseExpression_iff_parse_var (e name name' : Text) (x : Expr) :
    parseExpression e name = .ok x ↔
      parse ("<?cs var:" ++ e ++ " ?>") name' = .ok (.output .var ⟨0, 1, 1⟩ x) :=
  ⟨fun h => parse_output_of_expression .var h name', fun h => parseExpression_of_output .var h name⟩

end ClearSilver
