/-
# What the scripts of commands take

For each way to write a tag or a block, what its script gives where the tokens
of its parts stand. A tag ends with its own mark, so any rest stops it; a body
ends where the next tag closes or continues a block, or at the end
(`BodyEnds`).

Key definitions: `TagAhead`, `EndsAt`, `BodyEnds`, `Script.moreBranches`,
`Script.conditional`.
Key theorems: `Script.commandOver_passes`, `Script.commandOver_takes`,
`Script.closeBlock_takes`, `Script.takes_block`, `Script.branches_last`,
`Script.branches_more`, `Script.siblings_data`, `Script.siblings_command`,
`Script.siblings_end`.
-/
import ClearSilver.Proofs.Parser.CommandReads
import ClearSilver.Proofs.Parser.ExpressionPasses
import ClearSilver.Tree.Written

namespace ClearSilver

/-- Does a tag that begins with such a kind of token stand here? -/
def TagAhead (p : Token.Kind → Prop) (rest : List Token) : Prop :=
  ∃ openTag keyword ts, rest = openTag :: keyword :: ts ∧ openTag.kind = .tagOpen ∧ p keyword.kind

/-- Does the input end here, or does a tag stand here that begins with such a
kind of token? -/
def EndsAt (p : Token.Kind → Prop) (rest : List Token) : Prop :=
  (∃ tok ts, rest = tok :: ts ∧ tok.kind = .eof) ∨ TagAhead p rest

/-- Does a body end here? -/
abbrev BodyEnds : List Token → Prop := EndsAt (endsBody · = true)

theorem EndsAt.weaken {p q : Token.Kind → Prop} {rest : List Token} (h : EndsAt p rest)
    (hpq : ∀ k, p k → q k) : EndsAt q rest := by
  rcases h with h | ⟨openTag, keyword, ts, rfl, ho, hk⟩
  · exact .inl h
  · exact .inr ⟨openTag, keyword, ts, rfl, ho, hpq _ hk⟩

/-- A close tag ends a body. -/
theorem EndsAt.bodyEnds {rest : List Token} (h : EndsAt (· = .symbol .slash) rest) :
    BodyEnds rest :=
  h.weaken fun _ hk => by rw [hk]; rfl

theorem TagAhead.append {p : Token.Kind → Prop} {ts : List Token} (h : TagAhead p ts)
    (rest : List Token) : TagAhead p (ts ++ rest) := by
  obtain ⟨openTag, keyword, us, rfl, ho, hk⟩ := h
  exact ⟨openTag, keyword, us ++ rest, rfl, ho, hk⟩

theorem TagAhead.bodyEnds {p : Token.Kind → Prop} {rest : List Token} (h : TagAhead p rest)
    (hp : ∀ k, p k → endsBody k = true) : BodyEnds rest :=
  EndsAt.weaken (.inr h) hp

/-- The kind of the delimiter of an inclusion. -/
def IncludeForm.delimiterKind : IncludeForm → Token.Kind
  | .soft | .lsoft => .softDelimiter
  | .hard | .lhard => .hardDelimiter

namespace Script

open Form

variable {budget : Nat} {us ws : List Token} {tok last delim : Token} {e : Expr} {v : Variable}

/-! ### Parts of a tag -/

theorem delimiter_soft (keyword : Token) (allowHard : Bool) (htok : tok.kind = .softDelimiter) :
    (delimiter keyword allowHard).Takes [tok] false anyRest :=
  .accept (List.mem_singleton.mpr htok) (.refl _ _)

theorem delimiter_hard (keyword : Token) (htok : tok.kind = .hardDelimiter) :
    (delimiter keyword true).Takes [tok] true anyRest :=
  .skip (not_mem_singleton htok (by decide)) (.accept (List.mem_singleton.mpr htok) (.refl _ _))

theorem endTag_takes (hlast : last.kind = .tagClose) : endTag.Takes [last] () anyRest :=
  (takes_expect .tagClose hlast).map fun _ => ()

/-- An expression ends before the end of its tag. -/
theorem clear_tagClose (hlast : last.kind = .tagClose) (rest : List Token) :
    Clear (Token.Kind.Extends levels) (last :: rest) := by
  refine .cons ?_ _
  rw [hlast]
  rintro ((h | h) | h | ⟨level, hl, h⟩)
  · cases h
  · cases h
  · cases h
  · cases ho : level.operator? .tagClose with
    | none => exact h ho
    | some op =>
      obtain ⟨s, -, hs⟩ := operator?_eq_some ho
      cases hs

theorem headedTag_takes (keyword : Token) (hdelim : delim.kind = .softDelimiter)
    (he : (expression budget).Takes us e (Clear (Token.Kind.Extends levels)))
    (hlast : last.kind = .tagClose) :
    (headedTag budget keyword).Takes (delim :: (us ++ [last])) e anyRest :=
  Takes.cons (delimiter_soft keyword false hdelim)
    (Takes.bind he ((endTag_takes hlast).map fun _ => e) fun rest _ => clear_tagClose hlast rest)

theorem target_takes (hv : (variablePath budget).Takes us v (Clear Token.Kind.MorePath))
    (hlast : last.kind = .symbol .assign) : (target budget).Takes (us ++ [last]) v anyRest := by
  refine Takes.bind hv ((takes_expect (.symbol .assign) hlast).map fun _ => v)
    fun rest _ => .cons ?_ rest
  rw [hlast]
  rintro (h | h) <;> cases h

theorem bindingTag_takes (keyword : Token) (hdelim : delim.kind = .softDelimiter)
    (hv : (target budget).Takes us v anyRest)
    (he : (expression budget).Takes ws e (Clear (Token.Kind.Extends levels)))
    (hlast : last.kind = .tagClose) :
    (bindingTag budget keyword).Takes (delim :: (us ++ (ws ++ [last]))) (v, e) anyRest :=
  Takes.cons (delimiter_soft keyword false hdelim)
    (Takes.bind hv (Takes.bind he ((endTag_takes hlast).map fun _ => (v, e))
      fun rest _ => clear_tagClose hlast rest) fun _ _ => trivial)

theorem matches_close {k : Keyword} {ts : List Token} (h : (phrase (.close k)).Matches ts) :
    ∃ o s kw c, ts = [o, s, kw, c] ∧ o.kind = .tagOpen ∧ s.kind = .symbol .slash ∧
      kw.kind = .keyword k ∧ c.kind = .tagClose := by
  obtain ⟨o, us, ho, rfl, hus⟩ := matches_token_both.mp (matches_phrase.mp h)
  obtain ⟨s, vs, hs, rfl, hvs⟩ := matches_token_both.mp hus
  obtain ⟨kw, ws, hkw, rfl, hws⟩ := matches_token_both.mp hvs
  obtain ⟨c, hc, rfl⟩ := matches_token.mp hws
  exact ⟨o, s, kw, c, rfl, ho, hs, hkw, hc⟩

/-- The close tag of a block is taken. -/
theorem closeBlock_takes (openTag : Token) {keyword : Token} {k : Keyword}
    (hk : keyword.kind = .keyword k) {ts : List Token} (h : (phrase (.close k)).Matches ts) :
    (closeBlock openTag keyword).Takes ts () anyRest := by
  obtain ⟨o, s, kw, c, rfl, ho, hs, hkw, hc⟩ := matches_close h
  have hin : ((expect .tagOpen .tagOpen).bind fun _ =>
      (expect (.symbol .slash) (.closeOf keyword.text)).bind fun _ =>
      (expect keyword.kind (.closeOf keyword.text)).bind fun _ => endTag).Takes [o, s, kw, c] ()
      anyRest :=
    Takes.cons (takes_expect _ ho) (Takes.cons (takes_expect _ hs)
      (Takes.cons (takes_expect _ (hkw.trans hk.symm)) (endTag_takes hc)))
  exact .ask_false (by simp [ho]) hin

/-- A block that is open at the end is not closed. -/
theorem closeBlock_eof (openTag keyword : Token) (hlast : last.kind = .eof) (rest : List Token) :
    (closeBlock openTag keyword).feed (last :: rest) = .failed (.unclosed keyword openTag) := by
  refine (feed_ask [.eof] _ last rest).trans ?_
  rw [decide_eq_true (List.mem_singleton.mpr hlast)]
  rfl

/-- A close tag ends a body. -/
theorem tagAhead_of_close {k : Keyword} {ts : List Token} (h : (phrase (.close k)).Matches ts)
    (rest : List Token) : TagAhead (· = .symbol .slash) (ts ++ rest) := by
  obtain ⟨o, s, kw, c, rfl, ho, hs, -, -⟩ := matches_close h
  exact ⟨o, s, kw :: c :: rest, rfl, ho, hs⟩

variable {body : Script (List Command)} {cs : List Command} {openTag keyword : Token} {k : Keyword}

theorem enclosed_takes (hb : body.Takes us cs BodyEnds) (hk : keyword.kind = .keyword k)
    (hclose : (phrase (.close k)).Matches ws) :
    (enclosed body openTag keyword).Takes (us ++ ws) (.ofList cs) anyRest :=
  Takes.bind hb ((closeBlock_takes openTag hk hclose).map fun _ => Command.ofList cs) fun rest _ =>
    (tagAhead_of_close hclose rest).bodyEnds fun _ hk => by rw [hk]; rfl

/-! ### Macro names and bounds -/

theorem macroWords_more {word : Token} {ws : List Text} (htok : tok.kind = .symbol .dot)
    (hword : word.kind = .word) {stop : List Token → Prop}
    (h : (macroWords budget).Takes us ws stop) :
    (macroWords (budget + 1)).Takes (tok :: word :: us) (word.text :: ws) stop :=
  .accept (List.mem_singleton.mpr htok) (Takes.cons (takes_expect .macroName hword)
    (h.map (word.text :: ·)))

theorem macroWords_end (budget : Nat) :
    (macroWords (budget + 1)).Takes [] [] (Clear (· = .symbol .dot)) :=
  .skip_rest (fun _ h => h.weaken fun _ hk => List.mem_singleton.mp hk) (.refl _ _)

theorem macroName_takes {ws : List Text} (htok : tok.kind = .word) {stop : List Token → Prop}
    (h : (macroWords budget).Takes us ws stop) :
    (macroName budget).Takes (tok :: us) ⟨tok.text, ws⟩ stop :=
  Takes.cons (takes_expect .macroName htok) (h.map (MacroName.mk tok.text))

section

variable {e₁ e₂ e₃ : Expr} {ts₁ ts₂ ts₃ : List Token} {comma comma' : Token}

/-- An expression ends before a comma. -/
theorem clear_comma (htok : tok.kind = .symbol .comma) (rest : List Token) :
    Clear (Token.Kind.Extends levels) (tok :: rest) := by
  refine .cons ?_ rest
  rw [htok]
  decide

/-- What ends the bounds of a loop. -/
abbrev EndsBounds : Token.Kind → Prop := MoreItems (Token.Kind.Extends levels)

theorem bounds_upTo (h : (expression budget).Takes ts₁ e₁ (Clear (Token.Kind.Extends levels))) :
    (bounds budget).Takes ts₁ (.upTo e₁) (Clear EndsBounds) := by
  rw [← List.append_nil ts₁]
  refine Takes.bind h (.skip_rest (fun _ h => ?_) (.refl _ _)) fun _ h => ?_
  · exact Clear.weaken h fun _ hk => .inr (List.mem_singleton.mp hk)
  · exact Clear.weaken h fun _ hk => .inl hk

theorem bounds_range (h₁ : (expression budget).Takes ts₁ e₁ (Clear (Token.Kind.Extends levels)))
    (h₂ : (expression budget).Takes ts₂ e₂ (Clear (Token.Kind.Extends levels)))
    (hc : comma.kind = .symbol .comma) :
    (bounds budget).Takes (ts₁ ++ comma :: ts₂) (.range e₁ e₂) (Clear EndsBounds) := by
  rw [← List.append_nil ts₂]
  refine Takes.bind h₁ (.accept (List.mem_singleton.mpr hc) (Takes.bind h₂
    (.skip_rest (fun _ h => ?_) (.refl _ _)) fun _ h => ?_)) fun rest _ => clear_comma hc _
  · exact Clear.weaken h fun _ hk => .inr (List.mem_singleton.mp hk)
  · exact Clear.weaken h fun _ hk => .inl hk

theorem bounds_stepped (h₁ : (expression budget).Takes ts₁ e₁ (Clear (Token.Kind.Extends levels)))
    (h₂ : (expression budget).Takes ts₂ e₂ (Clear (Token.Kind.Extends levels)))
    (h₃ : (expression budget).Takes ts₃ e₃ (Clear (Token.Kind.Extends levels)))
    (hc : comma.kind = .symbol .comma) (hc' : comma'.kind = .symbol .comma) :
    (bounds budget).Takes (ts₁ ++ comma :: (ts₂ ++ comma' :: ts₃)) (.stepped e₁ e₂ e₃)
      (Clear EndsBounds) := by
  refine Takes.bind h₁ (.accept (List.mem_singleton.mpr hc) (Takes.bind h₂
    (.accept (List.mem_singleton.mpr hc') ((h₃.map (Bounds.stepped e₁ e₂)).weaken fun _ h => ?_))
    fun rest _ => clear_comma hc' _)) fun rest _ => clear_comma hc _
  exact Clear.weaken h fun _ hk => .inl hk

end

theorem loopHead_takes (keyword : Token) (hdelim : delim.kind = .softDelimiter)
    (hv : (target budget).Takes us v anyRest) {b : Bounds}
    (hb : (bounds budget).Takes ws b (Clear EndsBounds)) (hlast : last.kind = .tagClose) :
    (loopHead budget keyword).Takes (delim :: (us ++ (ws ++ [last]))) (v, b) anyRest := by
  refine Takes.cons (delimiter_soft keyword false hdelim) ?_
  refine Takes.bind hv ?_ fun _ _ => trivial
  refine Takes.bind hb ((endTag_takes hlast).map fun _ => (v, b)) fun rest _ => ?_
  obtain ⟨tok, ts, hts, h⟩ := clear_tagClose hlast rest
  refine ⟨tok, ts, hts, ?_⟩
  rintro (h' | h')
  · exact h h'
  · cases hts
    rw [hlast] at h'
    cases h'

theorem defineHead_takes (keyword : Token) (hdelim : delim.kind = .softDelimiter) {n : MacroName}
    (hn : (macroName budget).Takes us n (Clear (· = .symbol .dot)))
    (htok : tok.kind = .symbol .leftParen) {vs : List Variable}
    (hvs : (parenthesized (variablePath budget) budget).Takes ws vs anyRest)
    (hlast : last.kind = .tagClose) :
    (defineHead budget keyword).Takes (delim :: (us ++ tok :: (ws ++ [last]))) (n, vs)
      anyRest := by
  refine Takes.cons (delimiter_soft keyword false hdelim) ?_
  refine Takes.bind hn ?_ fun rest _ => .cons (by rw [htok]; decide) _
  refine Takes.cons (takes_expect (.symbol .leftParen) htok) ?_
  exact Takes.bind hvs ((endTag_takes hlast).map fun _ => (n, vs)) fun _ _ => trivial

/-! ### Branches -/

theorem Passes.tag {β : Type} {kind : Token.Kind} {next : Bool → Script β}
    {k : Token → Token → Script β} {b : Script β} {p : List Token → Prop}
    (hnext : next true = Script.advance.bind fun t => Script.advance.bind (k t))
    (ho : openTag.kind = .tagOpen)
    (hk : keyword.kind = kind) (h : (k openTag keyword).Passes us b p) :
    ((tagAhead kind).bind next).Passes (openTag :: keyword :: us) b p := by
  intro rest hp
  rw [feed_bind, List.cons_append, feed_tagAhead_of_eq ho]
  simp only [feed, List.cons_append, List.getElem?_cons_succ, List.getElem?_cons_zero, Fed.andThen,
    hk, decide_true, hnext]
  exact h rest hp

theorem Passes.noTag {β : Type} {kind : Token.Kind} {next : Bool → Script β} {b : Script β}
    {p : List Token → Prop} (hp : ∀ rest, p rest → EndsAt (· ≠ kind) rest)
    (h : (next false).Passes [] b p) : ((tagAhead kind).bind next).Passes [] b p := by
  intro rest hrest
  rcases hp rest hrest with ⟨t, ts, rfl, ht⟩ | ⟨o, t, ts, rfl, ho, ht⟩
  · rw [feed_bind, List.nil_append, feed_tagAhead_of_ne (by simp [ht])]
    exact h _ hrest
  · rw [feed_bind, List.nil_append, feed_tagAhead_of_eq ho]
    simp only [feed, List.getElem?_cons_succ, List.getElem?_cons_zero, Fed.andThen,
      decide_eq_false ht]
    exact h _ hrest

section

variable {place : Nat → Position} {o kw : Token}

/-- What stands behind the body of a branch. -/
def moreBranches (place : Nat → Position) (body : Script (List Command)) (budget n : Nat)
    (branch : Branch) : Script (List Branch) :=
  (tagAhead (.keyword .elseIf)).bind fun more =>
    if more then Script.advance.bind fun o => Script.advance.bind fun kw =>
      (branches place body (expression budget) n o kw).bind fun bs => done (branch :: bs)
    else done [branch]

/-- A branch is the head of its tag, a body and the branches behind it. -/
theorem branches_succ (place : Nat → Position) (body : Script (List Command)) (budget n : Nat)
    (openTag keyword : Token) :
    branches place body (expression budget) (n + 1) openTag keyword =
      (headedTag budget keyword).bind fun e => body.bind fun cs =>
        moreBranches place body budget n ⟨place openTag.offset, e, .ofList cs⟩ := by
  simp only [branches, headedTag, moreBranches, Bind.bind, bind_assoc]
  rfl

theorem moreBranches_none (place : Nat → Position) (body : Script (List Command))
    (budget n : Nat) (branch : Branch) : (moreBranches place body budget n branch).Takes [] [branch]
      (EndsAt fun k => k = .symbol .slash ∨ k = .keyword .elseTag) := by
  refine .noTag (fun rest h => ?_) (.refl (done [branch]) _)
  exact h.weaken fun k hk => by rcases hk with rfl | rfl <;> simp

/-- An `elif` tag goes on with its branch. -/
theorem moreBranches_tag (ho : o.kind = .tagOpen) (hkw : kw.kind = .keyword .elseIf) (n : Nat)
    (branch : Branch) : (moreBranches place body budget n branch).Passes [o, kw]
      ((branches place body (expression budget) n o kw).bind fun bs => done (branch :: bs))
      anyRest :=
  .tag rfl ho hkw (.refl _ _)

/-- The last branch of an `if` tag. -/
theorem branches_last (he : (headedTag budget keyword).Takes us e anyRest)
    (hb : body.Takes ws cs BodyEnds) (n : Nat) :
    (branches place body (expression budget) (n + 1) openTag keyword).Takes (us ++ ws)
      [⟨place openTag.offset, e, .ofList cs⟩]
      (EndsAt fun k => k = .symbol .slash ∨ k = .keyword .elseTag) := by
  rw [branches_succ, ← List.append_nil ws]
  refine Takes.bind he ?_ fun _ _ => trivial
  refine Takes.bind hb (moreBranches_none place body budget n _) fun rest h => ?_
  exact EndsAt.weaken h fun k hk => by rcases hk with rfl | rfl <;> rfl

/-- A branch of an `if` tag with an `elif` tag behind it. -/
theorem branches_more (he : (headedTag budget keyword).Takes us e anyRest)
    (hb : body.Takes ws cs BodyEnds) (ho : o.kind = .tagOpen) (hkw : kw.kind = .keyword .elseIf)
    {n : Nat} {ts : List Token} {bs : List Branch} {p : List Token → Prop}
    (hbs : (branches place body (expression budget) n o kw).Takes ts bs p) :
    (branches place body (expression budget) (n + 1) openTag keyword).Takes
      (us ++ (ws ++ o :: kw :: ts)) (⟨place openTag.offset, e, .ofList cs⟩ :: bs) p := by
  rw [branches_succ]
  refine Takes.bind he ?_ fun _ _ => trivial
  have hmore := Passes.trans (moreBranches_tag ho hkw n ⟨place openTag.offset, e, .ofList cs⟩)
    (hbs.map _) fun _ _ => trivial
  refine Takes.bind hb hmore fun rest _ => ?_
  exact .inr ⟨o, kw, ts ++ rest, rfl, ho, by rw [hkw]; rfl⟩

theorem elseBranch_none : (elseBranch body).Takes [] .noop (EndsAt (· = .symbol .slash)) := by
  refine .noTag (fun rest h => ?_) (.refl _ _)
  exact h.weaken fun k hk => by simp [hk]

theorem elseBranch_some (ho : o.kind = .tagOpen) (hkw : kw.kind = .keyword .elseTag)
    (hlast : last.kind = .tagClose) (hb : body.Takes us cs BodyEnds) :
    (elseBranch body).Takes (o :: kw :: last :: us) (.ofList cs) BodyEnds :=
  .tag rfl ho hkw (Takes.cons (endTag_takes hlast) (hb.map Command.ofList))

end

/-! ### Commands -/

section

variable {place : Nat → Position} {c : Command} {rest : Script Command} {stop : List Token → Prop}

theorem tag?_output (form : OutputForm) (hk : keyword.kind = .keyword form.keyword) :
    tag? place body budget openTag keyword = some ((headedTag budget keyword).bind fun e =>
      done (.output form (place openTag.offset) e)) := by
  cases form <;> (simp only [OutputForm.keyword] at hk; simp only [tag?, hk]; rfl)

theorem tag?_wrap (form : WrapForm) (hk : keyword.kind = .keyword form.keyword) :
    tag? place body budget openTag keyword = some ((headedTag budget keyword).bind fun e =>
      (enclosed body openTag keyword).bind fun c =>
        done (.wrap form (place openTag.offset) e c)) := by
  cases form <;> (simp only [WrapForm.keyword] at hk; simp only [tag?, hk]; rfl)

theorem tag?_bind (form : BindForm) (hk : keyword.kind = .keyword form.keyword) :
    tag? place body budget openTag keyword = some ((bindingTag budget keyword).bind fun p =>
      (enclosed body openTag keyword).bind fun c =>
        done (.bind form (place openTag.offset) p.1 p.2 c)) := by
  cases form <;> (simp only [BindForm.keyword] at hk; simp only [tag?, hk]; rfl)

theorem tag?_loop (hk : keyword.kind = .keyword .loop) :
    tag? place body budget openTag keyword = some ((loopHead budget keyword).bind fun p =>
      (enclosed body openTag keyword).bind fun c =>
        done (.loop (place openTag.offset) p.1 p.2 c)) := by
  rw [← loopHead_bind budget keyword fun v b => (enclosed body openTag keyword).bind fun c =>
    done (Command.loop (place openTag.offset) v b c)]
  simp only [tag?, hk]
  rfl

theorem tag?_define (hk : keyword.kind = .keyword .defTag) :
    tag? place body budget openTag keyword = some ((defineHead budget keyword).bind fun p =>
      (enclosed body openTag keyword).bind fun c =>
        done (.define (place openTag.offset) p.1 p.2 c)) := by
  rw [← defineHead_bind budget keyword fun n vs => (enclosed body openTag keyword).bind fun c =>
    done (Command.define (place openTag.offset) n vs c)]
  simp only [tag?, hk]
  rfl

theorem tag?_inline (hk : keyword.kind = .keyword .inline) :
    tag? place body budget openTag keyword = some (endTag.bind fun _ =>
      (enclosed body openTag keyword).bind fun c =>
        done (.inline (place openTag.offset) c)) := by
  simp only [tag?, hk]
  rfl

/-- The branches of an `if` tag, up to its close tag. -/
def conditional (place : Nat → Position) (body : Script (List Command)) (budget : Nat)
    (openTag keyword : Token) : Script Command :=
  (branches place body (expression budget) budget openTag keyword).bind fun bs =>
    (elseBranch body).bind fun c => done (Branch.chain bs c)

theorem tag?_if (hk : keyword.kind = .keyword .ifTag) :
    tag? place body budget openTag keyword =
      some ((conditional place body budget openTag keyword).bind fun c =>
        (closeBlock openTag keyword).bind fun _ => done c) := by
  simp only [tag?, hk, conditional, bind_assoc]
  rfl

/-- A command goes on as its keyword says. -/
theorem commandOver_passes (ho : openTag.kind = .tagOpen)
    (ht : tag? place body budget openTag keyword = some rest) :
    (commandOver place body budget).Passes [openTag, keyword] rest anyRest := by
  refine Takes.cons (takes_expect .tagOpen ho) (.advance ?_)
  rw [ht]
  exact fun _ _ => rfl

/-- A command is what stands behind its keyword. -/
theorem commandOver_takes (ho : openTag.kind = .tagOpen)
    (ht : tag? place body budget openTag keyword = some rest) (h : rest.Takes us c stop) :
    (commandOver place body budget).Takes (openTag :: keyword :: us) c stop :=
  Passes.trans (commandOver_passes ho ht) h fun _ _ => trivial

variable (ho : openTag.kind = .tagOpen)
include ho

theorem takes_comment (hk : keyword.kind = .commentStart) (hlast : last.kind = .tagClose) :
    (commandOver place body budget).Takes [openTag, keyword, last]
      (.comment (place openTag.offset) none) anyRest := by
  refine commandOver_takes ho (by simp only [tag?, hk]; rfl) ?_
  exact .skip (not_mem_singleton hlast (by decide))
    ((endTag_takes hlast).map fun _ => Command.comment (place openTag.offset) none)

theorem takes_comment_text (hk : keyword.kind = .commentStart) (htok : tok.kind = .comment)
    (hlast : last.kind = .tagClose) :
    (commandOver place body budget).Takes [openTag, keyword, tok, last]
      (.comment (place openTag.offset) (some tok.text)) anyRest := by
  refine commandOver_takes ho (by simp only [tag?, hk]; rfl) ?_
  exact .accept (List.mem_singleton.mpr htok)
    ((endTag_takes hlast).map fun _ => Command.comment (place openTag.offset) (some tok.text))

theorem takes_output (form : OutputForm) (hk : keyword.kind = .keyword form.keyword)
    (h : (headedTag budget keyword).Takes us e anyRest) :
    (commandOver place body budget).Takes (openTag :: keyword :: us)
      (.output form (place openTag.offset) e) anyRest :=
  commandOver_takes ho (tag?_output form hk)
    (h.map (Command.output form (place openTag.offset)))

theorem takes_assign (hk : keyword.kind = .keyword .set)
    (h : (bindingTag budget keyword).Takes us (v, e) anyRest) :
    (commandOver place body budget).Takes (openTag :: keyword :: us)
      (.assign (place openTag.offset) v e) anyRest := by
  refine commandOver_takes ho (by simp only [tag?, hk]; rfl) ?_
  exact h.map fun p => Command.assign (place openTag.offset) p.1 p.2

theorem takes_name (hk : keyword.kind = .keyword .name) (hdelim : delim.kind = .softDelimiter)
    (hv : (variablePath budget).Takes us v (Clear Token.Kind.MorePath))
    (hlast : last.kind = .tagClose) :
    (commandOver place body budget).Takes (openTag :: keyword :: delim :: (us ++ [last]))
      (.name (place openTag.offset) v) anyRest := by
  refine commandOver_takes ho (by simp only [tag?, hk]; rfl) ?_
  refine Takes.cons (delimiter_soft keyword false hdelim) ?_
  refine Takes.bind hv ((endTag_takes hlast).map fun _ => Command.name (place openTag.offset) v)
    fun rest _ => .cons ?_ rest
  rw [hlast]
  rintro (h | h) <;> cases h

/-- A block is its head, what it encloses and its close tag. -/
theorem takes_block {γ : Type} {head : Script γ} {x : γ} {e : γ → Command → Command}
    (ht : tag? place body budget openTag keyword = some (head.bind fun x =>
      (enclosed body openTag keyword).bind fun c => done (e x c)))
    (h : head.Takes us x anyRest) (hb : (enclosed body openTag keyword).Takes ws c anyRest) :
    (commandOver place body budget).Takes (openTag :: keyword :: (us ++ ws)) (e x c) anyRest :=
  commandOver_takes ho ht (Takes.bind h (hb.map (e x)) fun _ _ => trivial)

theorem takes_call (hk : keyword.kind = .keyword .call) (hdelim : delim.kind = .softDelimiter)
    {n : MacroName} (hn : (macroName budget).Takes us n (Clear (· = .symbol .dot)))
    (htok : tok.kind = .symbol .leftParen) {xs : List Token} {es : List Expr}
    (hes : (parenthesized (expression budget) budget).Takes xs es anyRest)
    (hlast : last.kind = .tagClose) :
    (commandOver place body budget).Takes
      (openTag :: keyword :: delim :: (us ++ tok :: (xs ++ [last])))
      (.call (place openTag.offset) n es) anyRest := by
  refine commandOver_takes ho (by simp only [tag?, hk]; rfl) ?_
  refine Takes.cons (delimiter_soft keyword false hdelim) ?_
  refine Takes.bind hn ?_ fun rest _ => .cons (by rw [htok]; decide) _
  refine Takes.cons (takes_expect (.symbol .leftParen) htok) ?_
  exact Takes.bind hes ((endTag_takes hlast).map fun _ => Command.call (place openTag.offset) n es)
    fun _ _ => trivial

theorem takes_if (hk : keyword.kind = .keyword .ifTag) {bs : List Branch} {xs ys : List Token}
    (hbs : (branches place body (expression budget) budget openTag keyword).Takes us bs
      (EndsAt fun k => k = .symbol .slash ∨ k = .keyword .elseTag))
    (hc : (elseBranch body).Takes xs c (EndsAt (· = .symbol .slash)))
    (hxs : xs = [] ∨ ∀ rest, TagAhead (· = .keyword .elseTag) (xs ++ rest))
    (hclose : (phrase (.close .ifTag)).Matches ys) :
    (commandOver place body budget).Takes (openTag :: keyword :: (us ++ (xs ++ ys)))
      (Branch.chain bs c) anyRest := by
  have hchain : (conditional place body budget openTag keyword).Takes (us ++ xs)
      (Branch.chain bs c) (EndsAt (· = .symbol .slash)) := by
    refine Takes.bind hbs (hc.map fun c => Branch.chain bs c) fun rest hrest => ?_
    rcases hxs with rfl | hxs
    · exact hrest.weaken fun _ => .inl
    · exact EndsAt.weaken (.inr (hxs rest)) fun _ => .inr
  rw [← List.append_assoc us]
  refine commandOver_takes ho (tag?_if hk) ?_
  exact Takes.bind hchain ((closeBlock_takes openTag hk hclose).map fun _ => Branch.chain bs c)
    fun rest _ => .inr (tagAhead_of_close hclose rest)

/-- An inclusion, whose form is told by its keyword and its delimiter. -/
theorem takes_inclusion (form : IncludeForm) (hk : keyword.kind = .keyword form.keyword)
    (hdelim : delim.kind = form.delimiterKind)
    (he : (expression budget).Takes us e (Clear (Token.Kind.Extends levels)))
    (hlast : last.kind = .tagClose) :
    (commandOver place body budget).Takes (openTag :: keyword :: delim :: (us ++ [last]))
      (.inclusion form (place openTag.offset) e) anyRest := by
  have hrest : (((expression budget).bind fun e => endTag.bind fun _ =>
      done (Command.inclusion form (place openTag.offset) e))).Takes (us ++ [last])
      (.inclusion form (place openTag.offset) e) anyRest :=
    Takes.bind he
      ((endTag_takes hlast).map fun _ => Command.inclusion form (place openTag.offset) e)
      fun rest _ => clear_tagClose hlast rest
  cases form <;> simp only [IncludeForm.keyword, IncludeForm.delimiterKind] at hk hdelim
  case soft | lsoft =>
    refine commandOver_takes ho (by simp only [tag?, hk]; rfl) ?_
    exact Takes.cons (delimiter_soft keyword true hdelim) hrest
  case hard | lhard =>
    refine commandOver_takes ho (by simp only [tag?, hk]; rfl) ?_
    exact Takes.cons (delimiter_hard keyword hdelim) hrest

theorem takes_contentType (hk : keyword.kind = .keyword .contentType)
    (hdelim : delim.kind = .softDelimiter) (htok : tok.kind = .string)
    (hlast : last.kind = .tagClose) :
    (commandOver place body budget).Takes [openTag, keyword, delim, tok, last]
      (.contentType (place openTag.offset) (unquoted tok.text)) anyRest := by
  refine commandOver_takes ho (by simp only [tag?, hk]; rfl) ?_
  refine Takes.cons (delimiter_soft keyword false hdelim) ?_
  refine Takes.cons (takes_expect .string htok) ?_
  exact (endTag_takes hlast).map fun _ =>
    Command.contentType (place openTag.offset) (unquoted tok.text)

end

/-! ### Bodies -/

section

variable {place : Nat → Position} {c : Command} {stop : List Token → Prop}

/-- Siblings go on behind literal text. -/
theorem siblings_passes_data (place : Nat → Position) (budget : Nat) (htok : tok.kind = .data) :
    (siblings place (budget + 1)).Passes [tok]
      ((siblings place budget).bind fun cs => done (.data tok.text :: cs)) anyRest := by
  intro rest _
  rw [List.singleton_append, feed_siblings_cons, if_pos htok]

/-- Siblings read a command where a tag stands that does not end the body. -/
theorem siblings_passes_tag (place : Nat → Position) (budget : Nat) :
    (siblings place (budget + 1)).Passes []
      ((commandOver place (marked (siblings place budget)) budget).bind fun c =>
        (siblings place budget).bind fun cs => done (c :: cs))
      (TagAhead (endsBody · = false)) := by
  rintro _ ⟨openTag, keyword, ts, rfl, ho, hk⟩
  rw [List.nil_append, feed_siblings_cons, if_neg (by simp [ho]), if_pos ho]
  simp only [hk]
  rfl

theorem siblings_data (htok : tok.kind = .data) (h : (siblings place budget).Takes us cs stop) :
    (siblings place (budget + 1)).Takes (tok :: us) (.data tok.text :: cs) stop :=
  Passes.trans (siblings_passes_data place budget htok) (h.map (Command.data tok.text :: ·))
    fun _ _ => trivial

/-- Siblings go on behind a command. -/
theorem siblings_passes_command {s : Script (List Command)} (ho : openTag.kind = .tagOpen)
    (hk : endsBody keyword.kind = false)
    (hc : (commandOver place (marked (siblings place budget)) budget).Takes
      (openTag :: keyword :: ws) c anyRest)
    (h : (siblings place budget).Passes us s stop) :
    (siblings place (budget + 1)).Passes (openTag :: keyword :: ws ++ us)
      (s.bind fun cs => done (c :: cs)) stop := by
  rw [← List.nil_append (openTag :: keyword :: ws ++ us)]
  refine Passes.trans (siblings_passes_tag place budget)
    (Takes.bind hc (.bind h) fun _ _ => trivial) fun rest _ => ?_
  exact ⟨openTag, keyword, ws ++ us ++ rest, rfl, ho, hk⟩

theorem siblings_command (ho : openTag.kind = .tagOpen) (hk : endsBody keyword.kind = false)
    (hc : (commandOver place (marked (siblings place budget)) budget).Takes
      (openTag :: keyword :: ws) c anyRest)
    (h : (siblings place budget).Takes us cs stop) :
    (siblings place (budget + 1)).Takes (openTag :: keyword :: ws ++ us) (c :: cs) stop :=
  siblings_passes_command ho hk hc h

theorem siblings_end (place : Nat → Position) (budget : Nat) :
    (siblings place (budget + 1)).Takes [] [] BodyEnds := by
  rintro _ (⟨tok, ts, rfl, htok⟩ | ⟨o, t, ts, rfl, ho, ht⟩)
  · rw [List.nil_append, feed_siblings_cons, if_neg (by simp [htok]), if_neg (by simp [htok])]
    rfl
  · rw [List.nil_append, feed_siblings_cons, if_neg (by simp [ho]), if_pos ho]
    simp only [ht, if_true]
    rfl

theorem marked_takes (h : body.Takes us cs stop) : (marked body).Takes us cs stop := by
  intro rest hrest
  rw [feed_marked]
  exact h rest hrest

end

end Script
end ClearSilver
