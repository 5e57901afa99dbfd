/-
# What decides the parse of a bare expression

A bare expression is read as a template is, from the arguments of a tag on: the
tokens up to the end, or those before the character that stops the scanner,
decide how its parse ends (`decides_drain_expression`), and it has a tree
where its tokens match an expression with the end behind them
(`expressionRun_ok`). What the tree is rests on the lexemes alone
(`Script.Takes.of_lexemes`).

Key definitions: `Script.expressionEnd`, `Script.upToEnd`.
Key theorems: `decides_drain_expression`, `upToEnd_run_ok`, `expressionRun_ok`,
`parseExpression_of_takes`, `Script.Completes.of_lexemes`, `Script.Takes.of_lexemes`.
-/
import ClearSilver.Proofs.Parse.Sound
import ClearSilver.Proofs.Parser.ExpressionAlike
import ClearSilver.Proofs.Parser.ExpressionTakes
import ClearSilver.Proofs.Parser.Lasts

namespace ClearSilver

open Form

/-- No end stands in an expression. -/
theorem Form.Leads.eof_not_mem_expression {ts : List Token} (h : Form.expression.Leads ts) :
    .eof ∉ ts.map (·.kind) := by
  obtain ⟨more, -, hd⟩ := h
  have heof := Stage.eof_not_mem_of_run hd.run_expression (by decide)
  exact fun hmem => heof (List.mem_append_left _ hmem)

namespace Script

/-! ### The script of bare expressions -/

/-- What a bare expression does behind its expression. -/
def expressionEnd (e : Expr) : List Token → Fed Expr
  | [] => .waiting
  | tok :: rest =>
    if tok.kind = .eof then .gave e rest else .failed (.unexpected .endOfExpression tok)

/-- A script with the end behind it. -/
def upToEnd (s : Script Expr) : Script Expr :=
  s.bind fun e => (expect .eof .endOfExpression).bind fun _ => done e

theorem feed_upToEnd (s : Script Expr) (ts : List Token) :
    (upToEnd s).feed ts = (s.feed ts).andThen expressionEnd := by
  refine (feed_bind _ _ _).trans ?_
  congr
  funext e rest
  cases rest with
  | nil => rfl
  | cons tok rest =>
    simp only [expressionEnd, expect, bind, feed, List.getElem?_cons_zero]
    by_cases htok : tok.kind = .eof
    · rw [if_pos htok, if_pos htok]
      rfl
    · rw [if_neg htok, if_neg htok]
      rfl

theorem feed_wholeExpression (budget : Nat) (ts : List Token) :
    (wholeExpression budget).feed ts = ((expression budget).feed ts).andThen expressionEnd :=
  feed_upToEnd (expression budget) ts

theorem wholeExpression_lasts (budget : Nat) : (wholeExpression budget).Lasts budget :=
  .bind (expression_lasts budget) fun _ => (Lasts.expect .eof .endOfExpression budget).map

/-- Behind the end no bare expression waits. -/
theorem wholeExpression_ne_waiting (budget : Nat) (us : List Token) {tok : Token}
    (htok : tok.kind = .eof) : (wholeExpression budget).feed (us ++ [tok]) ≠ .waiting := by
  have ho := expression_reads budget (us ++ [tok])
  have hmem : .eof ∈ (us ++ [tok]).map (·.kind) := by simp [htok]
  rw [feed_wholeExpression]
  generalize (expression budget).feed (us ++ [tok]) = fed at ho
  cases ho with
  | @gave e used rest hts hf hP =>
    cases rest with
    | nil =>
      -- the end would belong to the expression
      rw [List.append_nil] at hts
      exact absurd (hts ▸ hmem) hf.leads.eof_not_mem_expression
    | cons t rest =>
      rw [Fed.andThen, expressionEnd]
      split <;> simp
  | waiting hleads => exact absurd hmem hleads.eof_not_mem_expression
  | unexpected _ _ | unclosed _ _ | exhausted => simp [Fed.andThen]

/-- What is given up to the end is what the script gives, with the end behind it. -/
theorem upToEnd_gave {s : Script Expr} {f : Form} {P : List Token → Expr → Prop}
    {ts rest : List Token} {e : Expr} (hreads : s.Reads f P)
    (h : (upToEnd s).feed ts = .gave e rest) : ∃ used tok,
      ts = used ++ tok :: rest ∧ f.Matches used ∧ tok.kind = .eof ∧
        s.feed ts = .gave e (tok :: rest) := by
  have ho := hreads ts
  rw [feed_upToEnd] at h
  generalize s.feed ts = fed at ho h
  cases ho with
  | @gave e' used rest' hts hf hP =>
    cases rest' with
    | nil => cases h
    | cons tok rest' =>
      rw [Fed.andThen, expressionEnd] at h
      split at h
      · cases h
        exact ⟨used, tok, hts, hf, ‹_›, rfl⟩
      · cases h
  | unexpected _ _ | unclosed _ _ | exhausted | waiting _ => cases h

/-- The end does not carry an expression on. -/
theorem clear_atEnd (n : Nat) (rest : List Token) :
    Clear (Token.Kind.Extends levels) (Token.atEnd n :: rest) := by
  have hend : ¬ Token.Kind.Extends levels .eof := by decide
  exact .cons hend rest

/-! ### Expressions rest on their lexemes -/

/-- Tokens with the same lexemes keep the same. -/
theorem sameKept_lexeme : SameKept fun t t' => t.lexeme = t'.lexeme where
  kinds := fun _ _ h => congrArg Prod.fst h
  texts := fun t t' h => by
    have htext : t.text = t'.text := congrArg Prod.snd h
    have hkind : t.kind = t'.kind := congrArg Prod.fst h
    rw [Token.keptText?, Token.keptText?, hkind, htext]

theorem forall₂_lexeme {us us' : List Token} (h : us.map Token.lexeme = us'.map Token.lexeme) :
    List.Forall₂ (fun t t' : Token => t.lexeme = t'.lexeme) us us' := by
  have hmaps : List.Forall₂ Eq (us.map Token.lexeme) (us'.map Token.lexeme) := by
    rw [h]
    exact List.forall₂_same.mpr fun _ _ => rfl
  exact List.forall₂_map_right_iff.mp (List.forall₂_map_left_iff.mp hmaps)

/-- What takes all that matches a form, and goes the same way with every budget,
takes tokens with the same lexemes for the same result. -/
theorem Completes.of_lexemes {s : Nat → Script Expr} {f : Form} {stop : Token.Kind → Prop}
    (hs : ∀ budget, (s budget).Completes f budget stop)
    (halike : ∀ {R : Token → Token → Prop}, SameKept R → ∀ {budget budget' : Nat},
      budget ≤ budget' → Alike R Eq (s budget) (s budget'))
    (hend : ¬ stop .eof) {budget budget' : Nat} {us us' : List Token} {e : Expr}
    (hm : f.Matches us) (h : (s budget).Takes us e (Clear stop))
    (hsame : us.map Token.lexeme = us'.map Token.lexeme) (hlt : us'.length < budget') :
    (s budget').Takes us' e (Clear stop) := by
  have hm' : f.Matches us' := by
    rw [Form.Matches, ← map_lexeme_fst, ← hsame, map_lexeme_fst]
    exact hm
  obtain ⟨e', h'⟩ := hs budget' us' hm' hlt
  have hclear : Clear stop [Token.atEnd 0] := .cons hend []
  have hfed := h _ hclear
  have hfed' := h' _ hclear
  have hpair := forall₂_lexeme hsame
  have hlast : List.Forall₂ (fun t t' : Token => t.lexeme = t'.lexeme) [Token.atEnd 0]
      [Token.atEnd 0] := .cons rfl .nil
  suffices hequal : e = e' by rwa [hequal]
  rcases Nat.le_total budget budget' with hle | hle
  · have hboth := halike sameKept_lexeme hle _ _ (List.rel_append hpair hlast)
    rw [hfed, hfed'] at hboth
    cases hboth with
    | gave hQ _ => exact hQ
  · have hboth := halike sameKept_lexeme hle _ _
      (List.rel_append (hpair.flip.imp fun _ _ h => Eq.symm h) hlast)
    rw [hfed, hfed'] at hboth
    cases hboth with
    | gave hQ _ => exact hQ.symm

/-- **An expression rests on its lexemes**: tokens with the same ones are taken
for the same tree. -/
theorem Takes.of_lexemes {budget budget' : Nat} {us us' : List Token} {e : Expr}
    (hm : Form.expression.Matches us)
    (h : (expression budget).Takes us e (Clear (Token.Kind.Extends levels)))
    (hsame : us.map Token.lexeme = us'.map Token.lexeme) (hlt : us'.length < budget') :
    (expression budget').Takes us' e (Clear (Token.Kind.Extends levels)) :=
  Completes.of_lexemes expression_takes expression_alike (by decide) hm h hsame hlt

end Script

/-! ### Runs over a source -/

variable {source : Text}

/-- **The parse of a bare expression is decided** by the tokens up to a fault or
up to the end. -/
theorem decides_drain_expression (source : Text) : ∃ s,
    Pulls (Scanner.start source .arguments) (Scanner.start source .arguments).drain.1 s ∧
      (Script.wholeExpression (budgetFor source)).feed
        (Scanner.start source .arguments).drain.1 ≠ .failed .exhausted ∧
      ((Script.wholeExpression (budgetFor source)).feed
          (Scanner.start source .arguments).drain.1 = .waiting →
        ∃ fault, s.next = (.error fault, s)) := by
  have hlasts := Script.wholeExpression_lasts (budgetFor source) _
    (Nat.lt_succ_of_le (Scanner.start source .arguments).length_drain_le)
  obtain ⟨us, s, -, hp, hend⟩ := (Scanner.start source .arguments).drain_cases
  rcases hend with ⟨last, hn, hd⟩ | ⟨fault, hn, hd⟩ <;> rw [hd] at hlasts ⊢
  · refine ⟨last, hp.append (.more hn (.none last)), hlasts, fun hwaits => ?_⟩
    exact absurd hwaits (Script.wholeExpression_ne_waiting _ us rfl)
  · exact ⟨s, hp, hlasts, fun _ => ⟨fault, hn⟩⟩

/-- The budget of a bare expression is never spent. -/
theorem expressionRun_ne_exhausted (source : Text) :
    (expressionRun source).outcome ≠ .error .exhausted := by
  obtain ⟨s, hp, hlasts, hwaits⟩ := decides_drain_expression source
  refine Script.run_ne_exhausted (l := .start (Scanner.start source .arguments)) hp hlasts
    fun hw => ?_
  obtain ⟨f, hn⟩ := hwaits hw
  exact ⟨f, s, hn⟩

theorem expressionRun_of_outcome {us : List Token} {s : Scanner} {o : Except Fault Expr}
    (hp : Pulls (Scanner.start source .arguments) us s)
    (h : ((Script.wholeExpression (budgetFor source)).feed us).outcome? = some o) :
    (expressionRun source).outcome = o :=
  Script.run_outcome (l := .start (Scanner.start source .arguments)) hp h

/-- A source whose tokens are taken as an expression up to the end is parsed as
that expression. -/
theorem parseExpression_of_takes {us : List Token} {s last : Scanner} {e : Expr}
    (hp : Pulls (Scanner.start source .arguments) us s)
    (hn : s.next = (.ok (Token.atEnd source.length), last))
    (h : (Script.expression (budgetFor source)).Takes us e (Clear (Token.Kind.Extends levels)))
    (name : Text) : parseExpression source name = .ok e := by
  have hfed := h [Token.atEnd source.length] (Script.clear_atEnd _ [])
  have hrun : (expressionRun source).outcome = .ok e := by
    refine expressionRun_of_outcome (hp.append (.more hn (.none last))) ?_
    rw [Script.feed_wholeExpression, hfed]
    rfl
  rw [parseExpression, hrun]
  rfl

theorem expressionRun_of_parse {name : Text} {e : Expr} (h : parseExpression source name = .ok e) :
    (expressionRun source).outcome = .ok e := eq_ok_of_mapError h

theorem expressionRun_of_parse_error {name : Text} {e : ParseError}
    (h : parseExpression source name = .error e) :
    ∃ fault, (expressionRun source).outcome = .error fault ∧ e = fault.located source name :=
  exists_error_of_mapError h

/-- **What is read up to the end** has tokens that match its form with the end
behind them, and they are taken for its tree. -/
theorem upToEnd_run_ok {s : Script Expr} {f : Form} {P : List Token → Expr → Prop}
    {stop : Token.Kind → Prop} (hreads : s.Reads f P)
    (htakes : s.Completes f (budgetFor source) stop) (hend : ¬ stop .eof)
    (hplain : ∀ {us : List Token}, f.Matches us → .eof ∉ us.map (·.kind)) {e : Expr}
    (h : ((Script.upToEnd s).run (Lookahead.start (Scanner.start source .arguments))).outcome =
      .ok e) :
    ∃ us src last, Pulls (Scanner.start source .arguments) us src ∧ f.Matches us ∧
      src.next = (.ok (Token.atEnd source.length), last) ∧ s.Takes us e (Clear stop) := by
  obtain ⟨toks, src, hp, hrun⟩ := Script.run_feed (Script.upToEnd s)
    (.start (Scanner.start source .arguments))
  simp only [Lookahead.start, List.nil_append] at hp hrun
  rw [Lookahead.start] at h
  cases hfed : (Script.upToEnd s).feed toks with
  | failed fault =>
    rw [hfed] at hrun
    cases hrun with
    | failed hf =>
      rw [hf] at h
      cases h
  | waiting =>
    rw [hfed] at hrun
    cases hrun with
    | waiting hf _ =>
      rw [hf] at h
      cases h
  | gave e' rest =>
    rw [hfed] at hrun
    cases hrun with
    | gave ha _ =>
      rw [ha] at h
      cases h
      obtain ⟨used, tok, rfl, hf, htok, hgave⟩ := Script.upToEnd_gave hreads hfed
      have hne := ne_eof_of_not_mem (hplain hf)
      obtain ⟨src, hused, hs⟩ := hp.split
      cases hs with
      | more hnext _ =>
        have hlen := hused.length_le hne
        have htoken := Scanner.next_eof hnext htok
        rw [htoken, (hused.lexes hne).1] at hnext
        obtain ⟨e', he'⟩ := htakes used hf (by rw [budgetFor]; omega)
        have hclear : Clear stop (tok :: rest) := .cons (by rwa [htok]) rest
        obtain rfl := (Script.Fed.gave.inj (hgave.symm.trans (he' _ hclear))).1
        exact ⟨used, src, _, hused, hf, hnext, he'⟩

/-- **A bare expression that parses** has tokens that match an expression with
the end behind them, and they are taken for its tree. -/
theorem expressionRun_ok {e : Expr} (h : (expressionRun source).outcome = .ok e) :
    ∃ us s last, Pulls (Scanner.start source .arguments) us s ∧ Form.expression.Matches us ∧
      s.next = (.ok (Token.atEnd source.length), last) ∧
      (Script.expression (budgetFor source)).Takes us e (Clear (Token.Kind.Extends levels)) :=
  upToEnd_run_ok (Script.expression_reads _) (Script.expression_takes _) (by decide)
    (fun hm => hm.leads.eof_not_mem_expression) h

end ClearSilver
