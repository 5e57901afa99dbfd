/-
# A written command is taken for itself

The scripts of tags, blocks and bodies take the tokens that have the lexemes of
a command for that command, with other positions. A command is taken as a tag
where it is one, and as a body up to the tag that ends the body; a tag with
what it encloses is longer than the body, so the budget that is left is enough.

Key definitions: `Command.TagTaken`, `Command.BodyTaken`.
Key theorems: `Command.taken`, `Command.siblings_taken`.
-/
import ClearSilver.Proofs.Written.Command
import ClearSilver.Proofs.Written.ExpressionTaken
import ClearSilver.Tree.Relocate

namespace ClearSilver

open Script

variable {ts us : List Token} {budget : Nat} {k : Keyword} {args : List Lexeme}

/-! ### Parts of a tag -/

/-- A head, whose delimiter may be written with blanks. -/
theorem head_of_lexemes {x : Text} (h : ts.map Token.lexeme =
      Lexeme.tagOpen :: Lexeme.keyword k :: (.softDelimiter, x) :: (args ++ [Lexeme.tagEnd])) :
    ∃ o kw delim us last, ts = o :: kw :: delim :: (us ++ [last]) ∧ o.kind = .tagOpen ∧
      kw.kind = .keyword k ∧ delim.kind = .softDelimiter ∧ us.map Token.lexeme = args ∧
      last.kind = .tagClose := by
  obtain ⟨o, us, rfl, ho, -, h⟩ := map_lexeme_cons h
  obtain ⟨kw, us, rfl, hkw, -, h⟩ := map_lexeme_cons h
  obtain ⟨delim, us, rfl, hdelim, -, h⟩ := map_lexeme_cons h
  obtain ⟨us, vs, rfl, hus, hvs⟩ := List.map_eq_append_iff.mp h
  obtain ⟨last, rfl, hlast, -⟩ := map_lexeme_singleton hvs
  exact ⟨o, kw, delim, us, last, rfl, ho, hkw, hdelim, hus, hlast⟩

theorem bare_of_lexemes (h : ts.map Token.lexeme = bareLexemes k) :
    ∃ o kw last, ts = [o, kw, last] ∧ o.kind = .tagOpen ∧ kw.kind = .keyword k ∧
      last.kind = .tagClose := by
  obtain ⟨o, us, rfl, ho, -, h⟩ := map_lexeme_cons h
  obtain ⟨kw, us, rfl, hkw, -, h⟩ := map_lexeme_cons h
  obtain ⟨last, rfl, hlast, -⟩ := map_lexeme_singleton h
  exact ⟨o, kw, last, rfl, ho, hkw, hlast⟩

theorem matches_of_closeLexemes (h : ts.map Token.lexeme = closeLexemes k) :
    (Form.phrase (.close k)).Matches ts := by
  have hkinds : ts.map (·.kind) = [.tagOpen, .symbol .slash, .keyword k, .tagClose] := by
    have := congrArg (List.map Prod.fst) h
    rwa [List.map_map] at this
  rw [Form.Matches, hkinds]
  exact .phrase (.both (.token _) (.both (.token _) (.both (.token _) (.token _))))

theorem target_of_lexemes {v : Variable} {value : List Lexeme} (hv : v.Canonical)
    (h : ts.map Token.lexeme = bindingLexemes v value) (hlen : ts.length ≤ budget) :
    ∃ us ws, ts = us ++ ws ∧ us ≠ [] ∧ ws.map Token.lexeme = value ∧
      (target budget).Takes us v anyRest := by
  obtain ⟨us, ws, rfl, hus, hws⟩ := List.map_eq_append_iff.mp h
  obtain ⟨eq, ws, rfl, heq, -, hws⟩ := map_lexeme_cons hws
  simp only [List.length_append, List.length_cons] at hlen
  have hvar := Variable.variablePath_takes hv hus (show us.length ≤ budget by omega)
  have htarget := target_takes hvar heq
  exact ⟨us ++ [eq], ws, by simp, by simp, hws, htarget⟩

theorem bounds_of_lexemes {b : Bounds} (hb : b.Canonical) (h : ts.map Token.lexeme = b.lexemes)
    (hlen : ts.length < budget) : (bounds budget).Takes ts b (Clear EndsBounds) := by
  cases b with
  | upTo stop => exact bounds_upTo (Expr.expression_takes hb h hlen)
  | range start stop =>
    obtain ⟨us, ws, rfl, hus, hws⟩ := List.map_eq_append_iff.mp h
    obtain ⟨comma, ws, rfl, hcomma, -, hws⟩ := map_lexeme_cons hws
    simp only [List.length_append, List.length_cons] at hlen
    exact bounds_range (Expr.expression_takes hb.1 hus (by omega))
      (Expr.expression_takes hb.2 hws (by omega)) hcomma
  | stepped start stop step =>
    obtain ⟨us, ws, rfl, hus, hws⟩ := List.map_eq_append_iff.mp h
    obtain ⟨comma, ws, rfl, hcomma, -, hws⟩ := map_lexeme_cons hws
    obtain ⟨vs, ws, rfl, hvs, hws⟩ := List.map_eq_append_iff.mp hws
    obtain ⟨comma', ws, rfl, hcomma', -, hws⟩ := map_lexeme_cons hws
    simp only [List.length_append, List.length_cons] at hlen
    exact bounds_stepped (Expr.expression_takes hb.1 hus (by omega))
      (Expr.expression_takes hb.2.1 hvs (by omega)) (Expr.expression_takes hb.2.2 hws (by omega))
      hcomma hcomma'

theorem macroWords_of_lexemes : ∀ (ws : List Text) {ts : List Token} {budget : Nat},
    ts.map Token.lexeme = (ws.flatMap fun w => [Lexeme.symbol .dot, (.word, w)]) →
      ts.length < budget → (macroWords budget).Takes ts ws (Clear (· = .symbol .dot))
  | _, _, 0, _, hlen => absurd hlen (Nat.not_lt_zero _)
  | [], ts, budget + 1, h, _ => by
    obtain rfl := List.map_eq_nil_iff.mp h
    exact macroWords_end budget
  | w :: ws, ts, budget + 1, h, hlen => by
    simp only [List.flatMap_cons, List.cons_append, List.nil_append] at h
    obtain ⟨dot, us, rfl, hdot, -, hus⟩ := map_lexeme_cons h
    obtain ⟨word, vs, rfl, hword, rfl, hvs⟩ := map_lexeme_cons hus
    simp only [List.length_cons] at hlen
    exact macroWords_more hdot hword (macroWords_of_lexemes ws hvs (by omega))

theorem macroName_of_lexemes {n : MacroName} (h : ts.map Token.lexeme = n.lexemes)
    (hlen : ts.length ≤ budget) : (macroName budget).Takes ts n (Clear (· = .symbol .dot)) := by
  obtain ⟨tok, us, rfl, hk, hx, hus⟩ := map_lexeme_cons h
  have := macroName_takes hk (macroWords_of_lexemes n.more hus hlen)
  rwa [hx] at this

/-! ### Tags -/

/-- Is a tag with these tokens taken for the command, positions apart, and does
it end no body? -/
def Command.TagTaken (place : Nat → Position) (c : Command) (ts : List Token) (budget : Nat) :
    Prop :=
  ∃ o kw us c', ts = o :: kw :: us ∧ o.kind = .tagOpen ∧ endsBody kw.kind = false ∧
    (commandOver place (marked (siblings place budget)) budget).Takes (o :: kw :: us) c' anyRest ∧
    c'.unplaced = c.unplaced

/-- Is a body with these tokens taken for the command, positions apart? -/
def Command.BodyTaken (place : Nat → Position) (c : Command) (ts : List Token) (budget : Nat) :
    Prop :=
  ∃ cs, (Command.ofList cs).unplaced = c.unplaced ∧ (siblings place budget).Takes ts cs BodyEnds

variable {place : Nat → Position} {c body : Command}

/-- A tag is a body. -/
theorem Command.TagTaken.bodyTaken (h : c.TagTaken place ts budget) (hb : 0 < budget) :
    c.BodyTaken place ts (budget + 1) := by
  obtain ⟨b, rfl⟩ : ∃ b, budget = b + 1 := ⟨budget - 1, by omega⟩
  obtain ⟨o, kw, us, c', rfl, ho, hends, htakes, hc⟩ := h
  have := siblings_command ho hends htakes (siblings_end place b)
  rw [List.append_nil] at this
  exact ⟨[c'], hc, this⟩

/-- Is every body with the lexemes of the command taken for it? -/
def Command.Recovered (place : Nat → Position) (c : Command) : Prop :=
  ∀ (us : List Token) (budget : Nat), us.map Token.lexeme = c.lexemes → us.length < budget →
    c.BodyTaken place us budget

/-- What a block encloses, with its close tag. -/
theorem enclosed_of_lexemes (hb : body.Recovered place) {ws : List Token}
    (hws : ws.map Token.lexeme = body.lexemes ++ closeLexemes k) (hlen : ws.length ≤ budget) :
    ∃ c', c'.unplaced = body.unplaced ∧ ∀ openTag keyword : Token, keyword.kind = .keyword k →
      (enclosed (marked (siblings place budget)) openTag keyword).Takes ws c' anyRest := by
  obtain ⟨us, vs, rfl, hus, hvs⟩ := List.map_eq_append_iff.mp hws
  have hclose : vs.length = 4 := by
    have := congrArg List.length hvs
    rwa [List.length_map] at this
  rw [List.length_append] at hlen
  obtain ⟨cs, hcs, htakes⟩ := hb us budget hus (by omega)
  exact ⟨_, hcs, fun openTag keyword hk =>
    enclosed_takes (marked_takes htakes) hk (matches_of_closeLexemes hvs)⟩

section

variable {e : Expr} {v : Variable}

theorem headed_of_lexemes (he : e.Canonical) (h : ts.map Token.lexeme = headLexemes k e.lexemes)
    (hlen : ts.length ≤ budget) : ∃ o kw us, ts = o :: kw :: us ∧ o.kind = .tagOpen ∧
      kw.kind = .keyword k ∧ (headedTag budget kw).Takes us e anyRest := by
  obtain ⟨o, kw, delim, us, last, rfl, ho, hkw, hdelim, hus, hlast⟩ := head_of_lexemes h
  simp only [List.length_cons, List.length_append] at hlen
  have hexpr := Expr.expression_takes he hus (show us.length < budget by omega)
  exact ⟨o, kw, _, rfl, ho, hkw, headedTag_takes kw hdelim hexpr hlast⟩

theorem binding_of_lexemes (hv : v.Canonical) (he : e.Canonical)
    (h : ts.map Token.lexeme = headLexemes k (bindingLexemes v e.lexemes))
    (hlen : ts.length ≤ budget) : ∃ o kw us, ts = o :: kw :: us ∧ o.kind = .tagOpen ∧
      kw.kind = .keyword k ∧ (bindingTag budget kw).Takes us (v, e) anyRest := by
  obtain ⟨o, kw, delim, us, last, rfl, ho, hkw, hdelim, hus, hlast⟩ := head_of_lexemes h
  simp only [List.length_cons, List.length_append] at hlen
  obtain ⟨us, ws, rfl, -, hws, htarget⟩ := target_of_lexemes hv hus
    (show us.length ≤ budget by omega)
  rw [List.length_append] at hlen
  have hexpr := Expr.expression_takes he hws (show ws.length < budget by omega)
  have htag := bindingTag_takes kw hdelim htarget hexpr hlast
  rw [← List.append_assoc] at htag
  exact ⟨o, kw, _, rfl, ho, hkw, htag⟩

variable {position : Position}

theorem output_taken {form : OutputForm} (he : e.Canonical)
    (h : ts.map Token.lexeme = (Command.output form position e).lexemes)
    (hlen : ts.length ≤ budget) :
    (Command.output form position e).TagTaken place ts budget := by
  obtain ⟨o, kw, us, rfl, ho, hkw, htag⟩ := headed_of_lexemes he h hlen
  exact ⟨o, kw, us, _, rfl, ho, by rw [hkw]; cases form <;> rfl, takes_output ho form hkw htag, rfl⟩

theorem assign_taken (hv : v.Canonical) (he : e.Canonical)
    (h : ts.map Token.lexeme = (Command.assign position v e).lexemes) (hlen : ts.length ≤ budget) :
    (Command.assign position v e).TagTaken place ts budget := by
  obtain ⟨o, kw, us, rfl, ho, hkw, htag⟩ := binding_of_lexemes hv he h hlen
  exact ⟨o, kw, us, _, rfl, ho, by rw [hkw]; rfl, takes_assign ho hkw htag, rfl⟩

theorem name_taken (hv : v.Canonical)
    (h : ts.map Token.lexeme = (Command.name position v).lexemes) (hlen : ts.length ≤ budget) :
    (Command.name position v).TagTaken place ts budget := by
  obtain ⟨o, kw, delim, us, last, rfl, ho, hkw, hdelim, hus, hlast⟩ := head_of_lexemes h
  simp only [List.length_cons, List.length_append] at hlen
  have hvar := Variable.variablePath_takes hv hus (show us.length ≤ budget by omega)
  exact ⟨o, kw, _, _, rfl, ho, by rw [hkw]; rfl, takes_name ho hkw hdelim hvar hlast, rfl⟩

theorem wrap_taken {form : WrapForm} (he : e.Canonical) (hb : body.Recovered place)
    (h : ts.map Token.lexeme = (Command.wrap form position e body).lexemes)
    (hlen : ts.length ≤ budget) : (Command.wrap form position e body).TagTaken place ts budget := by
  obtain ⟨us, ws, rfl, hus, hws⟩ := List.map_eq_append_iff.mp h
  rw [List.length_append] at hlen
  obtain ⟨o, kw, us, rfl, ho, hkw, htag⟩ := headed_of_lexemes he hus
    (show us.length ≤ budget by omega)
  obtain ⟨c', hc', hbody⟩ := enclosed_of_lexemes hb hws
    (show ws.length ≤ budget by omega)
  refine ⟨o, kw, us ++ ws, _, rfl, ho, by rw [hkw]; cases form <;> rfl,
    takes_block ho (tag?_wrap form hkw) htag (hbody o kw hkw), ?_⟩
  exact congrArg (Command.wrap form ⟨0, 0, 0⟩ e) hc'

theorem bind_taken {form : BindForm} (hv : v.Canonical) (he : e.Canonical)
    (hb : body.Recovered place)
    (h : ts.map Token.lexeme = (Command.bind form position v e body).lexemes)
    (hlen : ts.length ≤ budget) :
    (Command.bind form position v e body).TagTaken place ts budget := by
  obtain ⟨us, ws, rfl, hus, hws⟩ := List.map_eq_append_iff.mp h
  rw [List.length_append] at hlen
  obtain ⟨o, kw, us, rfl, ho, hkw, htag⟩ := binding_of_lexemes hv he hus
    (show us.length ≤ budget by omega)
  obtain ⟨c', hc', hbody⟩ := enclosed_of_lexemes hb hws
    (show ws.length ≤ budget by omega)
  refine ⟨o, kw, us ++ ws, _, rfl, ho, by rw [hkw]; cases form <;> rfl,
    takes_block ho (tag?_bind form hkw) htag (hbody o kw hkw), ?_⟩
  exact congrArg (Command.bind form ⟨0, 0, 0⟩ v e) hc'

theorem loop_taken {b : Bounds} (hv : v.Canonical) (hbs : b.Canonical) (hb : body.Recovered place)
    (h : ts.map Token.lexeme = (Command.loop position v b body).lexemes)
    (hlen : ts.length ≤ budget) : (Command.loop position v b body).TagTaken place ts budget := by
  obtain ⟨us, ws, rfl, hus, hws⟩ := List.map_eq_append_iff.mp h
  obtain ⟨o, kw, delim, xs, last, rfl, ho, hkw, hdelim, hxs, hlast⟩ := head_of_lexemes hus
  simp only [List.length_cons, List.length_append] at hlen
  obtain ⟨xs, ys, rfl, -, hys, htarget⟩ := target_of_lexemes hv hxs
    (show xs.length ≤ budget by omega)
  rw [List.length_append] at hlen
  have hbounds := bounds_of_lexemes hbs hys (show ys.length < budget by omega)
  obtain ⟨c', hc', hbody⟩ := enclosed_of_lexemes hb hws
    (show ws.length ≤ budget by omega)
  have htakes : (commandOver place _ budget).Takes _ _ anyRest := takes_block ho (tag?_loop hkw)
    (loopHead_takes kw hdelim htarget hbounds hlast) (hbody o kw hkw)
  refine ⟨o, kw, delim :: (xs ++ ys ++ [last]) ++ ws, _, rfl, ho, by rw [hkw]; rfl,
    by simpa only [List.append_assoc, List.cons_append, List.nil_append] using htakes, ?_⟩
  exact congrArg (Command.loop ⟨0, 0, 0⟩ v b) hc'

theorem contentType_taken {value : Text}
    (h : ts.map Token.lexeme = (Command.contentType position value).lexemes) :
    (Command.contentType position value).TagTaken place ts budget := by
  obtain ⟨o, kw, delim, us, last, rfl, ho, hkw, hdelim, hus, hlast⟩ := head_of_lexemes h
  obtain ⟨tok, rfl, htok, hx⟩ := map_lexeme_singleton hus
  have htakes : (commandOver place (marked (siblings place budget)) budget).Takes _ _ anyRest :=
    takes_contentType ho hkw hdelim htok hlast
  rw [hx, unquoted_inQuotes] at htakes
  exact ⟨o, kw, _, _, rfl, ho, by rw [hkw]; rfl, htakes, rfl⟩

theorem comment_taken {text : Option Text}
    (h : ts.map Token.lexeme = (Command.comment position text).lexemes) :
    (Command.comment position text).TagTaken place ts budget := by
  obtain ⟨o, us, rfl, ho, -, hus⟩ := map_lexeme_cons h
  obtain ⟨kw, us, rfl, hkw, -, hvs⟩ := map_lexeme_cons hus
  cases text with
  | none =>
    obtain ⟨last, rfl, hlast, -⟩ := map_lexeme_singleton hvs
    exact ⟨o, kw, _, _, rfl, ho, by rw [hkw]; rfl, takes_comment ho hkw hlast, rfl⟩
  | some t =>
    obtain ⟨tok, us, rfl, htok, rfl, hws⟩ := map_lexeme_cons hvs
    obtain ⟨last, rfl, hlast, -⟩ := map_lexeme_singleton hws
    exact ⟨o, kw, _, _, rfl, ho, by rw [hkw]; rfl, takes_comment_text ho hkw htok hlast, rfl⟩

theorem inline_taken (hb : body.Recovered place)
    (h : ts.map Token.lexeme = (Command.inline position body).lexemes) (hlen : ts.length ≤ budget) :
    (Command.inline position body).TagTaken place ts budget := by
  obtain ⟨us, ws, rfl, hus, hws⟩ := List.map_eq_append_iff.mp h
  obtain ⟨o, kw, last, rfl, ho, hkw, hlast⟩ := bare_of_lexemes hus
  simp only [List.length_cons, List.length_append] at hlen
  obtain ⟨c', hc', hbody⟩ := enclosed_of_lexemes hb hws
    (show ws.length ≤ budget by omega)
  refine ⟨o, kw, last :: ws, _, rfl, ho, by rw [hkw]; rfl,
    takes_block ho (tag?_inline hkw) (endTag_takes hlast) (hbody o kw hkw), ?_⟩
  exact congrArg (Command.inline ⟨0, 0, 0⟩) hc'

theorem inclusion_taken {form : IncludeForm} (he : e.Canonical)
    (h : ts.map Token.lexeme = (Command.inclusion form position e).lexemes)
    (hlen : ts.length ≤ budget) : (Command.inclusion form position e).TagTaken place ts budget := by
  obtain ⟨o, us, rfl, ho, -, hus⟩ := map_lexeme_cons h
  obtain ⟨kw, us, rfl, hkw, -, hvs⟩ := map_lexeme_cons hus
  obtain ⟨delim, us, rfl, hdelim, -, hws⟩ := map_lexeme_cons hvs
  obtain ⟨es, xs, rfl, hes, hxs⟩ := List.map_eq_append_iff.mp hws
  obtain ⟨last, rfl, hlast, -⟩ := map_lexeme_singleton hxs
  simp only [List.length_cons, List.length_append] at hlen
  have hexpr := Expr.expression_takes he hes (show es.length < budget by omega)
  exact ⟨o, kw, _, _, rfl, ho, by rw [hkw]; cases form <;> rfl,
    takes_inclusion ho form hkw hdelim hexpr hlast, rfl⟩

/-! ### Macros -/

theorem macro_of_lexemes {called : MacroName} {items : List (List Lexeme)}
    (h : ts.map Token.lexeme = macroLexemes called items) (hlen : ts.length ≤ budget) :
    ∃ ns paren xs, ts = ns ++ paren :: xs ∧ paren.kind = .symbol .leftParen ∧
      xs.map Token.lexeme = Lexeme.listed items ++ [Lexeme.symbol .rightParen] ∧
      xs.length < budget ∧ (∀ ls ∈ items, ls.length < budget) ∧
      (macroName budget).Takes ns called (Clear (· = .symbol .dot)) := by
  obtain ⟨ns, xs, rfl, hns, hxs⟩ := List.map_eq_append_iff.mp h
  obtain ⟨paren, xs, rfl, hparen, -, hxs⟩ := map_lexeme_cons hxs
  have hlist := congrArg List.length hxs
  simp only [List.length_map, List.length_append, List.length_cons, List.length_nil] at hlen hlist
  refine ⟨ns, paren, xs, rfl, hparen, hxs, by omega, fun ls hls => ?_,
    macroName_of_lexemes hns (by omega)⟩
  have := length_le_listed hls
  omega

theorem variables_takesEach : ∀ {vs : List Variable}, (∀ v ∈ vs, v.Canonical) →
    (∀ ls ∈ vs.map Variable.lexemes, ls.length < budget) →
      TakesEach (variablePath budget) Token.Kind.MorePath (vs.map Variable.lexemes) vs
  | [], _, _ => .nil
  | v :: vs, hvs, hlen => by
    obtain ⟨hv, hvs⟩ := List.forall_mem_cons.mp hvs
    obtain ⟨hlt, hlen⟩ := List.forall_mem_cons.mp hlen
    refine .cons (fun ts hts => ?_) (variables_takesEach hvs hlen)
    rw [← hts, List.length_map] at hlt
    exact Variable.variablePath_takes hv hts (by omega)

theorem define_taken {called : MacroName} {parameters : List Variable}
    (hvs : ∀ v ∈ parameters, v.Canonical) (hb : body.Recovered place)
    (h : ts.map Token.lexeme = (Command.define position called parameters body).lexemes)
    (hlen : ts.length ≤ budget) :
    (Command.define position called parameters body).TagTaken place ts budget := by
  obtain ⟨us, ws, rfl, hus, hws⟩ := List.map_eq_append_iff.mp h
  obtain ⟨o, kw, delim, xs, last, rfl, ho, hkw, hdelim, hxs, hlast⟩ := head_of_lexemes hus
  simp only [List.length_cons, List.length_append] at hlen
  obtain ⟨ns, paren, xs, rfl, hparen, hxs, hlt, hitems, hname⟩ :=
    macro_of_lexemes hxs (show xs.length ≤ budget by omega)
  have hparams := (variables_takesEach hvs hitems).parenthesized (by decide) (by decide)
    (path_rejectsClose _ budget) hxs (Nat.le_of_lt hlt)
  obtain ⟨c', hc', hbody⟩ := enclosed_of_lexemes hb hws
    (show ws.length ≤ budget by omega)
  have htakes : (commandOver place _ budget).Takes _ _ anyRest := takes_block ho (tag?_define hkw)
    (defineHead_takes kw hdelim hname hparen hparams hlast) (hbody o kw hkw)
  refine ⟨o, kw, delim :: (ns ++ paren :: xs ++ [last]) ++ ws, _, rfl, ho, by rw [hkw]; rfl,
    by simpa only [List.append_assoc, List.cons_append, List.nil_append] using htakes, ?_⟩
  exact congrArg (Command.define ⟨0, 0, 0⟩ called parameters) hc'

theorem call_taken {called : MacroName} {arguments : List Expr}
    (hes : Expr.CanonicalAll arguments)
    (h : ts.map Token.lexeme = (Command.call position called arguments).lexemes)
    (hlen : ts.length ≤ budget) :
    (Command.call position called arguments).TagTaken place ts budget := by
  obtain ⟨o, kw, delim, xs, last, rfl, ho, hkw, hdelim, hxs, hlast⟩ := head_of_lexemes h
  simp only [List.length_cons, List.length_append] at hlen
  obtain ⟨ns, paren, xs, rfl, hparen, hxs, hlt, hitems, hname⟩ :=
    macro_of_lexemes hxs (show xs.length ≤ budget by omega)
  have hargs := (takesEach_of_readAs (Expr.takenEach arguments hes) hitems).parenthesized
    (by decide) (by decide) (expression_rejectsClose budget) hxs (Nat.le_of_lt hlt)
  have htakes : (commandOver place (marked (siblings place budget)) budget).Takes _ _ anyRest :=
    takes_call ho hkw hdelim hname hparen hargs hlast
  refine ⟨o, kw, delim :: (ns ++ paren :: xs ++ [last]), _, rfl, ho, by rw [hkw]; rfl,
    by simpa only [List.append_assoc, List.cons_append, List.nil_append] using htakes, ?_⟩
  rfl

/-! ### Branches -/

theorem ifElse_taken {block otherwise : Command} (he : e.Canonical) (hb : block.Recovered place)
    (ho : otherwise.Recovered place)
    (h : ts.map Token.lexeme = (Command.ifElse position e block otherwise).lexemes)
    (hlen : ts.length ≤ budget) :
    (Command.ifElse position e block otherwise).TagTaken place ts budget := by
  obtain ⟨us, ws, rfl, hus, hws⟩ := List.map_eq_append_iff.mp h
  obtain ⟨bs, ws, rfl, hbs, hws⟩ := List.map_eq_append_iff.mp hws
  obtain ⟨xs, ws, rfl, hxs, hws⟩ := List.map_eq_append_iff.mp hws
  obtain ⟨os, cs, rfl, hos, hcs⟩ := List.map_eq_append_iff.mp hws
  obtain ⟨o, kw, delim, es, last, rfl, hopen, hkw, hdelim, hes, hlast⟩ := head_of_lexemes hus
  obtain ⟨o', kw', last', rfl, hopen', hkw', hlast'⟩ := bare_of_lexemes hxs
  simp only [List.length_cons, List.length_append] at hlen
  obtain ⟨block', hblock, hbody⟩ := hb bs budget hbs (by omega)
  obtain ⟨others, hothers, helse⟩ := ho os budget hos (by omega)
  obtain ⟨b, rfl⟩ : ∃ b, budget = b + 1 := ⟨budget - 1, by omega⟩
  have hexpr := Expr.expression_takes he hes (show es.length < b + 1 by omega)
  have hbranch : (branches place _ (expression (b + 1)) (b + 1) o kw).Takes _ _ _ :=
    branches_last (headedTag_takes kw hdelim hexpr hlast) (marked_takes hbody) b
  have hotherwise := (elseBranch_some hopen' hkw' hlast' (marked_takes helse)).weaken
    fun rest (h : EndsAt (· = .symbol .slash) rest) => h.weaken fun k hk => by rw [hk]; rfl
  have htakes := takes_if hopen hkw hbranch hotherwise
    (.inr fun rest => ⟨o', kw', _, rfl, hopen', hkw'⟩) (matches_of_closeLexemes hcs)
  refine ⟨o, kw, delim :: (es ++ [last]) ++ (bs ++ ([o', kw', last'] ++ (os ++ cs))), _, rfl, hopen,
    by rw [hkw]; rfl,
    by simpa only [List.append_assoc, List.cons_append, List.nil_append] using htakes, ?_⟩
  change Command.ifElse ⟨0, 0, 0⟩ e (Command.ofList block').unplaced
    (Command.ofList others).unplaced = Command.ifElse ⟨0, 0, 0⟩ e block.unplaced otherwise.unplaced
  rw [hblock, hothers]

end

/-! ### Commands and bodies -/

/-- What is shown of each canonical command. -/
structure Command.Taken (place : Nat → Position) (c : Command) : Prop where
  tag : c.IsTag → ∀ {ts : List Token} {budget : Nat}, ts.map Token.lexeme = c.lexemes →
    ts.length ≤ budget → c.TagTaken place ts budget
  body : c.Recovered place

theorem Command.Taken.of_tag (h : ∀ {ts : List Token} {budget : Nat},
    ts.map Token.lexeme = c.lexemes → ts.length ≤ budget → c.TagTaken place ts budget) :
    c.Taken place where
  tag _ := h
  body us budget hus hlen := by
    obtain ⟨b, rfl⟩ : ∃ b, budget = b + 1 := ⟨budget - 1, by omega⟩
    have htag := h hus (Nat.le_of_lt_succ hlen)
    refine htag.bodyTaken ?_
    obtain ⟨o, kw, us, c', rfl, -⟩ := htag
    rw [List.length_cons] at hlen
    omega

/-- Bodies that say the same, positions apart. -/
theorem Command.unplaced_ofList {cs cs' : List Command} (htwo : 2 ≤ cs.length)
    (h : cs'.map Command.unplaced = cs.map Command.unplaced) :
    (Command.ofList cs').unplaced = (Command.multiple cs).unplaced := by
  have hlen := congrArg List.length h
  rw [List.length_map, List.length_map] at hlen
  have hof : Command.ofList cs' = .multiple cs' := by
    match cs' with
    | [] | [_] => simp at hlen; omega
    | _ :: _ :: _ => rfl
  rw [hof, unplaced, relocate, relocateAll_eq_map, unplaced, relocate, relocateAll_eq_map]
  exact congrArg Command.multiple h

/-- Siblings are taken as the first one and the others. -/
theorem siblings_of_taken {cs : List Command} (hs : c.isSibling = true) (hcan : c.Canonical)
    (hc : c.Taken place)
    (ih : ∀ (ts : List Token) (budget : Nat), ts.map Token.lexeme = Command.lexemesAll cs →
      ts.length < budget → ∃ cs', cs'.map Command.unplaced = cs.map Command.unplaced ∧
        (siblings place budget).Takes ts cs' BodyEnds)
    (hts : ts.map Token.lexeme = Command.lexemesAll (c :: cs)) (hlen : ts.length < budget) :
    ∃ cs', cs'.map Command.unplaced = (c :: cs).map Command.unplaced ∧
      (siblings place budget).Takes ts cs' BodyEnds := by
  obtain ⟨us, vs, rfl, hus, hvs⟩ := List.map_eq_append_iff.mp hts
  obtain ⟨b, rfl⟩ : ∃ b, budget = b + 1 := ⟨budget - 1, by omega⟩
  rw [List.length_append] at hlen
  cases hd : c.isData with
  | true =>
    cases c with
    | data text =>
      obtain ⟨tok, rfl, htok, rfl⟩ := map_lexeme_singleton hus
      rw [List.length_singleton] at hlen
      obtain ⟨cs', hcs', htakes⟩ := ih vs b hvs (by omega)
      exact ⟨.data tok.text :: cs', by rw [List.map_cons, List.map_cons, hcs'],
        siblings_data htok htakes⟩
    | _ => cases hd
  | false =>
    obtain ⟨o, kw, us, c', rfl, ho, hends, htag, hc'⟩ := hc.tag ⟨hs, hd, hcan⟩ hus
      (show us.length ≤ b by omega)
    rw [List.length_cons] at hlen
    obtain ⟨cs', hcs', htakes⟩ := ih vs b hvs (by omega)
    exact ⟨c' :: cs', by rw [List.map_cons, List.map_cons, hc', hcs'],
      siblings_command ho hends htag htakes⟩

mutual

/-- **A written command is taken for itself**, as a tag and as a body. -/
theorem Command.taken (place : Nat → Position) : ∀ c : Command, c.Canonical → c.Taken place
  | .multiple commands, ⟨htwo, hs, ha, hc⟩ => by
    refine ⟨fun h => (by cases h.1), fun ts budget hts hlen => ?_⟩
    obtain ⟨cs', hcs', htakes⟩ :=
      Command.siblings_taken place commands ⟨hs, ha, hc⟩ ts budget hts hlen
    exact ⟨cs', Command.unplaced_ofList htwo hcs', htakes⟩
  | .data text, h => by
    refine ⟨fun h => (by cases h.2.1), fun ts budget hts hlen => ?_⟩
    obtain ⟨tok, rfl, htok, rfl⟩ := map_lexeme_singleton hts
    rw [List.length_singleton] at hlen
    obtain ⟨b, rfl⟩ : ∃ b, budget = b + 2 := ⟨budget - 2, by omega⟩
    exact ⟨[.data tok.text], rfl, siblings_data htok (siblings_end place b)⟩
  | .noop, _ => by
    refine ⟨fun h => (by cases h.1), fun ts budget hts hlen => ?_⟩
    obtain rfl := List.map_eq_nil_iff.mp hts
    obtain ⟨b, rfl⟩ : ∃ b, budget = b + 1 := ⟨budget - 1, by simp at hlen; omega⟩
    exact ⟨[], rfl, siblings_end place b⟩
  | .comment _ _, _ => .of_tag fun h _ => comment_taken h
  | .output _ _ _, he => .of_tag (output_taken he)
  | .assign _ _ _, ⟨hv, he⟩ => .of_tag (assign_taken hv he)
  | .name _ _, hv => .of_tag (name_taken hv)
  | .wrap _ _ _ body, ⟨he, hb⟩ => .of_tag (wrap_taken he (body.taken place hb).body)
  | .bind _ _ _ _ body, ⟨hv, he, hb⟩ => .of_tag (bind_taken hv he (body.taken place hb).body)
  | .loop _ _ _ body, ⟨hv, hbs, hb⟩ => .of_tag (loop_taken hv hbs (body.taken place hb).body)
  | .define _ _ _ body, ⟨_, hvs, hb⟩ => .of_tag (define_taken hvs (body.taken place hb).body)
  | .call _ _ _, ⟨_, hes⟩ => .of_tag (call_taken hes)
  | .ifElse _ _ block otherwise, ⟨he, hb, ho⟩ =>
    .of_tag (ifElse_taken he (block.taken place hb).body (otherwise.taken place ho).body)
  | .inclusion _ _ _, he => .of_tag (inclusion_taken he)
  | .contentType _ _, _ => .of_tag fun h _ => contentType_taken h
  | .inline _ body, hb => .of_tag (inline_taken (body.taken place hb).body)

/-- Written siblings are taken for themselves. -/
theorem Command.siblings_taken (place : Nat → Position) : ∀ cs : List Command, Command.Tidy cs →
    ∀ (ts : List Token) (budget : Nat), ts.map Token.lexeme = Command.lexemesAll cs →
      ts.length < budget → ∃ cs', cs'.map Command.unplaced = cs.map Command.unplaced ∧
        (siblings place budget).Takes ts cs' BodyEnds
  | [], _, ts, budget, hts, hlen => by
    obtain rfl := List.map_eq_nil_iff.mp hts
    obtain ⟨b, rfl⟩ : ∃ b, budget = b + 1 := ⟨budget - 1, by simp at hlen; omega⟩
    exact ⟨[], rfl, siblings_end place b⟩
  | c :: cs, h, ts, budget, hts, hlen => by
    have hs : c.isSibling = true := (Bool.and_eq_true _ _ ▸ List.all_cons ▸ h.siblings).1
    exact siblings_of_taken hs h.canonical.1 (c.taken place h.canonical.1)
      (Command.siblings_taken place cs h.tail) hts hlen

end

end ClearSilver
