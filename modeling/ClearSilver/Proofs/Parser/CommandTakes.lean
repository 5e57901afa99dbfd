/-
# What matches the forms of commands is taken

The scripts of tags, blocks and bodies take all tokens that match their forms,
where the budget is greater than their number. The blocks of a body are shorter
than the body, so bodies are taken by induction on the budget.

Key definitions: `Script.CompletesBody`, `Script.CompletesTag`.
Key theorems: `Script.keyworded_of_matches`, `Script.siblings_takes`.
-/
import ClearSilver.Proofs.Parser.CommandPasses
import ClearSilver.Proofs.Parser.ExpressionTakes

namespace ClearSilver

namespace Script

open Form

variable {place : Nat → Position} {body : Script (List Command)} {budget : Nat}
  {openTag keyword : Token} {k : Keyword} {ts : List Token}

/-! ### Heads of tags -/

/-- `keyword: expression ?>` behind the keyword. -/
theorem headedTag_of_matches (h : headed.Matches ts) (hlen : ts.length ≤ budget)
    (keyword : Token) : ∃ e, (headedTag budget keyword).Takes ts e anyRest := by
  obtain ⟨delim, ys, hdelim, rfl, hys⟩ := matches_token_both.mp h
  obtain ⟨us, zs, rfl, hus, hzs⟩ := matches_both.mp hys
  obtain ⟨last, hlast, rfl⟩ := matches_token.mp hzs
  simp only [List.length_cons, List.length_append] at hlen
  obtain ⟨e, he⟩ := expression_takes budget us hus (by omega)
  exact ⟨e, headedTag_takes keyword hdelim he hlast⟩

/-- `keyword: variable = expression ?>` behind the keyword. -/
theorem bindingTag_of_matches (h : (tagRest binding).Matches ts) (hlen : ts.length ≤ budget)
    (keyword : Token) : ∃ p, (bindingTag budget keyword).Takes ts p anyRest := by
  obtain ⟨delim, ys, hdelim, rfl, hys⟩ := matches_token_both.mp h
  obtain ⟨us, zs, rfl, hus, hzs⟩ := matches_both.mp hys
  obtain ⟨eq, rs, heq, rfl, hrs⟩ := matches_token_both.mp hzs
  obtain ⟨ws, qs, rfl, hws, hqs⟩ := matches_both.mp hrs
  obtain ⟨last, hlast, rfl⟩ := matches_token.mp hqs
  simp only [List.length_cons, List.length_append] at hlen
  obtain ⟨v, hv⟩ := variablePath_takes budget us hus (by omega)
  obtain ⟨e, he⟩ := expression_takes budget ws hws (by omega)
  have htakes := bindingTag_takes keyword hdelim (target_takes hv heq) he hlast
  rw [List.append_assoc] at htakes
  exact ⟨(v, e), htakes⟩

theorem bounds_of_matches (h : (both Form.expression (optional (sequence [symbol .comma,
    Form.expression, optional (both (symbol .comma) Form.expression)]))).Matches ts)
    (hlen : ts.length < budget) : ∃ b, (bounds budget).Takes ts b (Clear EndsBounds) := by
  have he := expression_takes budget
  obtain ⟨us, vs, rfl, hus, hvs⟩ := matches_both.mp h
  rw [List.length_append] at hlen
  obtain ⟨e₁, h₁⟩ := he us hus (by omega)
  rcases matches_either.mp hvs with hvs | hvs
  · obtain ⟨comma, xs, hc, rfl, hxs⟩ := matches_token_both.mp hvs
    obtain ⟨ws, ys, rfl, hws, hys⟩ := matches_both.mp hxs
    simp only [List.length_cons, List.length_append] at hlen
    obtain ⟨e₂, h₂⟩ := he ws hws (by omega)
    rcases matches_either.mp hys with hys | hys
    · obtain ⟨comma', zs, hc', rfl, hzs⟩ := matches_token_both.mp hys
      rw [List.length_cons] at hlen
      obtain ⟨e₃, h₃⟩ := he zs hzs (by omega)
      exact ⟨_, bounds_stepped h₁ h₂ h₃ hc hc'⟩
    · obtain rfl := matches_empty.mp hys
      rw [List.append_nil]
      exact ⟨_, bounds_range h₁ h₂ hc⟩
  · obtain rfl := matches_empty.mp hvs
    rw [List.append_nil]
    exact ⟨_, bounds_upTo h₁⟩

theorem macroWords_of_matches : ∀ (parts : List (List Token)) (budget : Nat),
    (∀ us ∈ parts, (both (symbol .dot) (token .word)).Matches us) → parts.length < budget →
      ∃ ws, (macroWords budget).Takes parts.flatten ws (Clear (· = .symbol .dot))
  | _, 0, _, hlt => absurd hlt (Nat.not_lt_zero _)
  | [], budget + 1, _, _ => ⟨[], macroWords_end budget⟩
  | us :: parts, budget + 1, hparts, hlt => by
    obtain ⟨hus, hrest⟩ := List.forall_mem_cons.mp hparts
    obtain ⟨tok, xs, htok, rfl, hxs⟩ := matches_token_both.mp hus
    obtain ⟨word, hword, rfl⟩ := matches_token.mp hxs
    obtain ⟨ws, hws⟩ := macroWords_of_matches parts budget hrest (Nat.lt_of_succ_lt_succ hlt)
    exact ⟨_, macroWords_more htok hword hws⟩

theorem macroName_of_matches (h : (phrase .macroName).Matches ts) (hlen : ts.length ≤ budget) :
    ∃ n, (macroName budget).Takes ts n (Clear (· = .symbol .dot)) := by
  obtain ⟨tok, us, htok, rfl, hus⟩ := matches_token_both.mp (matches_phrase.mp h)
  obtain ⟨parts, rfl, hparts⟩ := matches_many.mp hus
  have hle := length_le_flatten fun us hus (h : us = []) =>
    both_ne_nil (fun ws hws => by obtain ⟨tok, -, rfl⟩ := matches_token.mp hws; simp)
      (h ▸ hparts us hus)
  rw [List.length_cons] at hlen
  obtain ⟨ws, hws⟩ := macroWords_of_matches parts budget hparts (by omega)
  exact ⟨_, macroName_takes htok hws⟩

/-- `keyword: variable = bounds ?>` behind the keyword. -/
theorem loopHead_of_matches (h : (tagRest loopArguments).Matches ts) (hlen : ts.length ≤ budget)
    (keyword : Token) : ∃ p, (loopHead budget keyword).Takes ts p anyRest := by
  obtain ⟨delim, ys, hdelim, rfl, hys⟩ := matches_token_both.mp h
  obtain ⟨vs, zs, rfl, hvs, hzs⟩ := matches_both.mp hys
  obtain ⟨eq, rs, heq, rfl, hrs⟩ := matches_token_both.mp hzs
  obtain ⟨es, qs, rfl, hes, hqs⟩ := matches_both.mp hrs
  obtain ⟨os, ls, rfl, hos, hls⟩ := matches_both.mp hqs
  obtain ⟨last, hlast, rfl⟩ := matches_token.mp hls
  simp only [List.length_cons, List.length_append] at hlen
  obtain ⟨v, hv⟩ := variablePath_takes budget vs hvs (by omega)
  have hlimits : (es ++ os).length < budget := by
    rw [List.length_append]
    omega
  obtain ⟨b, hb⟩ := bounds_of_matches (matches_both.mpr ⟨es, os, rfl, hes, hos⟩) hlimits
  have htakes := loopHead_takes keyword hdelim (target_takes hv heq) hb hlast
  simp only [List.append_assoc, List.cons_append, List.nil_append] at htakes
  exact ⟨(v, b), htakes⟩

/-- `keyword: name(variables) ?>` behind the keyword. -/
theorem defineHead_of_matches (h : (tagRest defineArguments).Matches ts)
    (hlen : ts.length ≤ budget) (keyword : Token) :
    ∃ p, (defineHead budget keyword).Takes ts p anyRest := by
  obtain ⟨delim, ys, hdelim, rfl, hys⟩ := matches_token_both.mp h
  obtain ⟨ns, zs, rfl, hns, hzs⟩ := matches_both.mp hys
  obtain ⟨tok, rs, htok, rfl, hrs⟩ := matches_token_both.mp hzs
  obtain ⟨vs, qs, rfl, hvs, hqs⟩ := matches_both.mp hrs
  obtain ⟨right, ls, hright, rfl, hls⟩ := matches_token_both.mp hqs
  obtain ⟨last, hlast, rfl⟩ := matches_token.mp hls
  simp only [List.length_cons, List.length_append] at hlen
  obtain ⟨n, hn⟩ := macroName_of_matches hns (show ns.length ≤ budget by omega)
  have hparens : (vs ++ [right]).length ≤ budget := by
    rw [List.length_append, List.length_singleton]
    omega
  obtain ⟨params, hparams⟩ := parenthesized_of_matches (variablePath_takes budget) (by decide)
    (by decide) (path_rejectsClose _ budget)
    (matches_both.mpr ⟨vs, [right], rfl, hvs, matches_token.mpr ⟨right, hright, rfl⟩⟩)
    hparens hparens
  have htakes := defineHead_takes keyword hdelim hn htok hparams hlast
  simp only [List.append_assoc, List.cons_append, List.nil_append] at htakes
  exact ⟨(n, params), htakes⟩

/-! ### Blocks -/

/-- Does the script of bodies take all that matches one, up to a number of tokens? -/
def CompletesBody (body : Script (List Command)) (bound : Nat) : Prop :=
  ∀ ts : List Token, (phrase .commands).Matches ts → ts.length < bound →
    ∃ cs, body.Takes ts cs BodyEnds

theorem CompletesBody.marked (hb : body.CompletesBody budget) :
    (marked body).CompletesBody budget :=
  fun ts h hlen => (hb ts h hlen).imp fun _ => marked_takes

theorem block_of_matches (hb : body.CompletesBody budget) {head : Form}
    (h : (block k head).Matches ts) (hlen : ts.length ≤ budget) :
    ∃ us ws c, ts = us ++ ws ∧ head.Matches us ∧ us.length ≤ budget ∧
      ∀ openTag keyword : Token, keyword.kind = .keyword k →
        (enclosed body openTag keyword).Takes ws c anyRest := by
  obtain ⟨us, xs, rfl, hus, hxs⟩ := matches_both.mp h
  obtain ⟨ws, zs, rfl, hws, hzs⟩ := matches_both.mp hxs
  obtain ⟨_, _, _, _, rfl, -⟩ := matches_close hzs
  simp only [List.length_append, List.length_cons] at hlen
  obtain ⟨cs, hcs⟩ := hb ws hws (by omega)
  refine ⟨us, _, .ofList cs, rfl, hus, by omega, fun openTag keyword hk => ?_⟩
  exact enclosed_takes hcs hk hzs

/-! ### Branches -/

/-- A branch behind its keyword, with the branches behind it. -/
theorem branches_of_matches (hb : body.CompletesBody budget) (place : Nat → Position) :
    ∀ (parts : List (List Token)) (n : Nat) {us ws : List Token} (openTag keyword : Token),
      headed.Matches us → (phrase .commands).Matches ws → (∀ ps ∈ parts, elseIfBranch.Matches ps) →
      (us ++ (ws ++ parts.flatten)).length < budget → parts.length < n →
        ∃ bs, (branches place body (expression budget) n openTag keyword).Takes
          (us ++ (ws ++ parts.flatten)) bs
          (EndsAt fun k => k = .symbol .slash ∨ k = .keyword .elseTag)
  | _, 0, _, _, _, _, _, _, _, _, hlt => absurd hlt (Nat.not_lt_zero _)
  | parts, n + 1, us, ws, openTag, keyword, hus, hws, hparts, hlen, hlt => by
    simp only [List.length_append] at hlen
    obtain ⟨e, he⟩ := headedTag_of_matches hus (show us.length ≤ budget by omega) keyword
    obtain ⟨cs, hcs⟩ := hb ws hws (by omega)
    cases parts with
    | nil =>
      rw [List.flatten_nil, List.append_nil]
      exact ⟨_, branches_last he hcs n⟩
    | cons ps parts =>
      obtain ⟨hps, hrest⟩ := List.forall_mem_cons.mp hparts
      obtain ⟨o, qs, ho, rfl, hqs⟩ := matches_token_both.mp hps
      obtain ⟨rs, ws', rfl, hrs, hws'⟩ := matches_both.mp hqs
      obtain ⟨kw, us', hkw, rfl, hus'⟩ := matches_token_both.mp hrs
      simp only [List.flatten_cons, List.length_append, List.length_cons] at hlen
      obtain ⟨bs, hbs⟩ := branches_of_matches hb place parts n o kw hus' hws' hrest
        (by simp only [List.length_append]; omega) (Nat.lt_of_succ_lt_succ hlt)
      have htakes : (branches place body _ (n + 1) openTag keyword).Takes _ _ _ :=
        branches_more he hcs ho hkw hbs
      exact ⟨_, by simpa only [List.flatten_cons, List.cons_append, List.append_assoc] using htakes⟩

theorem elseBranch_of_matches (hb : body.CompletesBody budget) (h : (optional (sequence
    [token .tagOpen, Form.keyword .elseTag, token .tagClose, phrase .commands])).Matches ts)
    (hlen : ts.length < budget) :
    (ts = [] ∨ ∀ rest, TagAhead (· = .keyword .elseTag) (ts ++ rest)) ∧
      ∃ c, (elseBranch body).Takes ts c (EndsAt (· = .symbol .slash)) := by
  rcases matches_either.mp h with h | h
  · obtain ⟨o, us, ho, rfl, hus⟩ := matches_token_both.mp h
    obtain ⟨kw, vs, hkw, rfl, hvs⟩ := matches_token_both.mp hus
    obtain ⟨last, ws, hlast, rfl, hws⟩ := matches_token_both.mp hvs
    simp only [List.length_cons] at hlen
    obtain ⟨cs, hcs⟩ := hb ws hws (by omega)
    refine ⟨.inr fun rest => ⟨o, kw, last :: ws ++ rest, rfl, ho, hkw⟩, .ofList cs, ?_⟩
    refine (elseBranch_some ho hkw hlast hcs).weaken fun rest h => ?_
    exact h.weaken fun k hk => by rw [hk]; rfl
  · obtain rfl := matches_empty.mp h
    exact ⟨.inl rfl, .noop, elseBranch_none⟩

/-! ### Commands -/

/-- Do these tokens behind the opening of a tag make it a command that is taken,
and no tag that ends a body? -/
def CompletesTag (place : Nat → Position) (body : Script (List Command)) (budget : Nat)
    (ts : List Token) : Prop :=
  ∃ kw us, ts = kw :: us ∧ endsBody kw.kind = false ∧ ∀ o : Token, o.kind = .tagOpen →
    ∃ c, (commandOver place body budget).Takes (o :: kw :: us) c anyRest

theorem comment_of_matches
    (h : (sequence [token .commentStart, optional (token .comment), token .tagClose]).Matches ts) :
    CompletesTag place body budget ts := by
  obtain ⟨kw, xs, hkw, rfl, hxs⟩ := matches_token_both.mp h
  obtain ⟨us, ys, rfl, hus, hys⟩ := matches_both.mp hxs
  obtain ⟨last, hlast, rfl⟩ := matches_token.mp hys
  refine ⟨kw, us ++ [last], rfl, by rw [hkw]; rfl, fun o ho => ?_⟩
  rcases matches_either.mp hus with hus | hus
  · obtain ⟨tok, htok, rfl⟩ := matches_token.mp hus
    exact ⟨_, takes_comment_text ho hkw htok hlast⟩
  · obtain rfl := matches_empty.mp hus
    exact ⟨_, takes_comment ho hkw hlast⟩

theorem output_of_matches (form : OutputForm) (h : (tag form.keyword [Form.expression]).Matches ts)
    (hlen : ts.length ≤ budget) : CompletesTag place body budget ts := by
  obtain ⟨kw, us, hkw, rfl, hus⟩ := matches_token_both.mp h
  obtain ⟨e, he⟩ := headedTag_of_matches hus (Nat.le_of_succ_le hlen) kw
  exact ⟨kw, us, rfl, by rw [hkw]; cases form <;> rfl,
    fun o ho => ⟨_, takes_output ho form hkw he⟩⟩

theorem assign_of_matches (h : (tag .set binding).Matches ts) (hlen : ts.length ≤ budget) :
    CompletesTag place body budget ts := by
  obtain ⟨kw, us, hkw, rfl, hus⟩ := matches_token_both.mp h
  obtain ⟨p, hp⟩ := bindingTag_of_matches hus (Nat.le_of_succ_le hlen) kw
  exact ⟨kw, us, rfl, by rw [hkw]; rfl, fun o ho => ⟨_, takes_assign ho hkw hp⟩⟩

theorem name_of_matches (h : (tag .name [phrase .path]).Matches ts) (hlen : ts.length ≤ budget) :
    CompletesTag place body budget ts := by
  obtain ⟨kw, xs, hkw, rfl, hxs⟩ := matches_token_both.mp h
  obtain ⟨delim, ys, hdelim, rfl, hys⟩ := matches_token_both.mp hxs
  obtain ⟨us, zs, rfl, hus, hzs⟩ := matches_both.mp hys
  obtain ⟨last, hlast, rfl⟩ := matches_token.mp hzs
  simp only [List.length_cons, List.length_append] at hlen
  obtain ⟨v, hv⟩ := variablePath_takes budget us hus (by omega)
  exact ⟨kw, _, rfl, by rw [hkw]; rfl, fun o ho => ⟨_, takes_name ho hkw hdelim hv hlast⟩⟩

theorem wrap_of_matches (hb : body.CompletesBody budget) (form : WrapForm)
    (h : (block form.keyword (tag form.keyword [Form.expression])).Matches ts)
    (hlen : ts.length ≤ budget) : CompletesTag place body budget ts := by
  obtain ⟨_, ws, c, rfl, hhead, hle, hc⟩ := block_of_matches hb h hlen
  obtain ⟨kw, us, hkw, rfl, hus⟩ := matches_token_both.mp hhead
  obtain ⟨e, he⟩ := headedTag_of_matches hus (Nat.le_of_succ_le hle) kw
  exact ⟨kw, us ++ ws, rfl, by rw [hkw]; cases form <;> rfl,
    fun o ho => ⟨_, takes_block ho (tag?_wrap form hkw) he (hc o kw hkw)⟩⟩

theorem bind_of_matches (hb : body.CompletesBody budget) (form : BindForm)
    (h : (block form.keyword (tag form.keyword binding)).Matches ts)
    (hlen : ts.length ≤ budget) : CompletesTag place body budget ts := by
  obtain ⟨_, ws, c, rfl, hhead, hle, hc⟩ := block_of_matches hb h hlen
  obtain ⟨kw, us, hkw, rfl, hus⟩ := matches_token_both.mp hhead
  obtain ⟨p, hp⟩ := bindingTag_of_matches hus (Nat.le_of_succ_le hle) kw
  exact ⟨kw, us ++ ws, rfl, by rw [hkw]; cases form <;> rfl,
    fun o ho => ⟨_, takes_block ho (tag?_bind form hkw) hp (hc o kw hkw)⟩⟩

theorem loop_of_matches (hb : body.CompletesBody budget)
    (h : (block .loop (tag .loop loopArguments)).Matches ts) (hlen : ts.length ≤ budget) :
    CompletesTag place body budget ts := by
  obtain ⟨_, ws, c, rfl, hhead, hle, hc⟩ := block_of_matches hb h hlen
  obtain ⟨kw, us, hkw, rfl, hus⟩ := matches_token_both.mp hhead
  obtain ⟨p, hp⟩ := loopHead_of_matches hus (Nat.le_of_succ_le hle) kw
  exact ⟨kw, us ++ ws, rfl, by rw [hkw]; rfl,
    fun o ho => ⟨_, takes_block ho (tag?_loop hkw) hp (hc o kw hkw)⟩⟩

theorem define_of_matches (hb : body.CompletesBody budget)
    (h : (block .defTag (tag .defTag defineArguments)).Matches ts) (hlen : ts.length ≤ budget) :
    CompletesTag place body budget ts := by
  obtain ⟨_, ws, c, rfl, hhead, hle, hc⟩ := block_of_matches hb h hlen
  obtain ⟨kw, us, hkw, rfl, hus⟩ := matches_token_both.mp hhead
  obtain ⟨p, hp⟩ := defineHead_of_matches hus (Nat.le_of_succ_le hle) kw
  exact ⟨kw, us ++ ws, rfl, by rw [hkw]; rfl,
    fun o ho => ⟨_, takes_block ho (tag?_define hkw) hp (hc o kw hkw)⟩⟩

theorem call_of_matches (h : (tag .call [phrase .macroName, symbol .leftParen,
    optional (separated Form.expression), symbol .rightParen]).Matches ts)
    (hlen : ts.length ≤ budget) : CompletesTag place body budget ts := by
  obtain ⟨kw, xs, hkw, rfl, hxs⟩ := matches_token_both.mp h
  obtain ⟨delim, ys, hdelim, rfl, hys⟩ := matches_token_both.mp hxs
  obtain ⟨ns, zs, rfl, hns, hzs⟩ := matches_both.mp hys
  obtain ⟨tok, rs, htok, rfl, hrs⟩ := matches_token_both.mp hzs
  obtain ⟨es, qs, rfl, hes, hqs⟩ := matches_both.mp hrs
  obtain ⟨right, ls, hright, rfl, hls⟩ := matches_token_both.mp hqs
  obtain ⟨last, hlast, rfl⟩ := matches_token.mp hls
  simp only [List.length_cons, List.length_append] at hlen
  obtain ⟨n, hn⟩ := macroName_of_matches hns (show ns.length ≤ budget by omega)
  have hparens : (es ++ [right]).length ≤ budget := by
    rw [List.length_append, List.length_singleton]
    omega
  obtain ⟨args, hargs⟩ := parenthesized_of_matches (expression_takes budget) (by decide) (by decide)
    (expression_rejectsClose budget)
    (matches_both.mpr ⟨es, [right], rfl, hes, matches_token.mpr ⟨right, hright, rfl⟩⟩)
    hparens hparens
  refine ⟨kw, delim :: (ns ++ tok :: (es ++ [right, last])), rfl, by rw [hkw]; rfl, fun o ho => ?_⟩
  have htakes : (commandOver place body budget).Takes _ _ anyRest :=
    takes_call ho hkw hdelim hn htok hargs hlast
  exact ⟨_, by simpa only [List.append_assoc, List.cons_append, List.nil_append] using htakes⟩

theorem inclusion_of_matches
    (h : (sequence [either (Form.keyword .includeTag) (Form.keyword .linclude),
      either (token .softDelimiter) (token .hardDelimiter), Form.expression,
      token .tagClose]).Matches ts)
    (hlen : ts.length ≤ budget) : CompletesTag place body budget ts := by
  obtain ⟨kws, xs, rfl, hkws, hxs⟩ := matches_both.mp h
  obtain ⟨ds, ys, rfl, hds, hys⟩ := matches_both.mp hxs
  obtain ⟨us, zs, rfl, hus, hzs⟩ := matches_both.mp hys
  obtain ⟨last, hlast, rfl⟩ := matches_token.mp hzs
  simp only [List.length_append, List.length_singleton] at hlen
  obtain ⟨e, he⟩ := expression_takes budget us hus (by omega)
  -- the keyword and the delimiter tell the form
  obtain ⟨kw, delim, form, rfl, rfl, hkw, hdelim⟩ : ∃ (kw delim : Token) (form : IncludeForm),
      kws = [kw] ∧ ds = [delim] ∧ kw.kind = .keyword form.keyword ∧
        delim.kind = form.delimiterKind := by
    rcases matches_either.mp hkws with hkws | hkws <;>
      obtain ⟨kw, hkw, rfl⟩ := matches_token.mp hkws <;>
      rcases matches_either.mp hds with hds | hds <;>
      obtain ⟨delim, hdelim, rfl⟩ := matches_token.mp hds
    · exact ⟨kw, delim, .soft, rfl, rfl, hkw, hdelim⟩
    · exact ⟨kw, delim, .hard, rfl, rfl, hkw, hdelim⟩
    · exact ⟨kw, delim, .lsoft, rfl, rfl, hkw, hdelim⟩
    · exact ⟨kw, delim, .lhard, rfl, rfl, hkw, hdelim⟩
  exact ⟨kw, _, rfl, by rw [hkw]; cases form <;> rfl,
    fun o ho => ⟨_, takes_inclusion ho form hkw hdelim he hlast⟩⟩

theorem contentType_of_matches (h : (tag .contentType [token .string]).Matches ts) :
    CompletesTag place body budget ts := by
  obtain ⟨kw, xs, hkw, rfl, hxs⟩ := matches_token_both.mp h
  obtain ⟨delim, ys, hdelim, rfl, hys⟩ := matches_token_both.mp hxs
  obtain ⟨tok, zs, htok, rfl, hzs⟩ := matches_token_both.mp hys
  obtain ⟨last, hlast, rfl⟩ := matches_token.mp hzs
  exact ⟨kw, _, rfl, by rw [hkw]; rfl, fun o ho => ⟨_, takes_contentType ho hkw hdelim htok hlast⟩⟩

theorem inline_of_matches (hb : body.CompletesBody budget)
    (h : (block .inline (both (Form.keyword .inline) (token .tagClose))).Matches ts)
    (hlen : ts.length ≤ budget) : CompletesTag place body budget ts := by
  obtain ⟨us, ws, c, rfl, hus, -, hc⟩ := block_of_matches hb h hlen
  obtain ⟨kw, xs, hkw, rfl, hxs⟩ := matches_token_both.mp hus
  obtain ⟨last, hlast, rfl⟩ := matches_token.mp hxs
  exact ⟨kw, _, rfl, by rw [hkw]; rfl, fun o ho =>
    ⟨_, takes_block ho (tag?_inline hkw) (endTag_takes hlast) (hc o kw hkw)⟩⟩

theorem if_of_matches (hb : body.CompletesBody budget)
    (h : (sequence [tag .ifTag [Form.expression], phrase .commands, many elseIfBranch,
      optional (sequence [token .tagOpen, Form.keyword .elseTag, token .tagClose,
        phrase .commands]), phrase (.close .ifTag)]).Matches ts)
    (hlen : ts.length ≤ budget) : CompletesTag place body budget ts := by
  obtain ⟨_, xs, rfl, htag, hxs⟩ := matches_both.mp h
  obtain ⟨kw, us, hkw, rfl, hus⟩ := matches_token_both.mp htag
  obtain ⟨ws, ys, rfl, hws, hys⟩ := matches_both.mp hxs
  obtain ⟨ps, zs, rfl, hps, hzs⟩ := matches_both.mp hys
  obtain ⟨parts, rfl, hparts⟩ := matches_many.mp hps
  obtain ⟨es, cs, rfl, hes, hclose⟩ := matches_both.mp hzs
  have hle := length_le_flatten fun ps hps (h : ps = []) => by
    obtain ⟨_, _, -, hnil, -⟩ := matches_token_both.mp (hparts ps hps)
    rw [h] at hnil
    cases hnil
  simp only [List.cons_append, List.length_append, List.length_cons] at hlen
  obtain ⟨helse, c, hc⟩ := elseBranch_of_matches hb hes (by omega)
  refine ⟨kw, us ++ (ws ++ (parts.flatten ++ (es ++ cs))), rfl, by rw [hkw]; rfl, fun o ho => ?_⟩
  obtain ⟨bs, hbs⟩ := branches_of_matches hb place parts budget o kw hus hws hparts
    (by simp only [List.length_append]; omega) (by omega)
  have htakes := takes_if ho hkw hbs hc helse hclose
  exact ⟨_, by simpa only [List.append_assoc] using htakes⟩

/-- What stands behind the opening of a tag is a command, and ends no body. -/
theorem keyworded_of_matches (hb : body.CompletesBody budget) (h : keyworded.Matches ts)
    (hlen : ts.length ≤ budget) : CompletesTag place body budget ts := by
  rcases (matches_anyOf _ _).mp h with h | ⟨f, hf, h⟩
  · exact comment_of_matches h
  simp only [commandForms, List.mem_cons, List.not_mem_nil, or_false] at hf
  rcases hf with rfl | rfl | rfl | rfl | rfl | rfl | rfl | rfl | rfl | rfl | rfl | rfl | rfl |
    rfl | rfl | rfl | rfl | rfl
  · exact output_of_matches .var h hlen
  · exact output_of_matches .lvar h hlen
  · exact output_of_matches .evar h hlen
  · exact output_of_matches .uvar h hlen
  · exact assign_of_matches h hlen
  · exact name_of_matches h hlen
  · exact wrap_of_matches hb .escape h hlen
  · exact wrap_of_matches hb .autoescape h hlen
  · exact wrap_of_matches hb .alt h hlen
  · exact bind_of_matches hb .scope h hlen
  · exact bind_of_matches hb .each h hlen
  · exact loop_of_matches hb h hlen
  · exact define_of_matches hb h hlen
  · exact call_of_matches h hlen
  · exact inclusion_of_matches h hlen
  · exact contentType_of_matches h
  · exact inline_of_matches hb h hlen
  · exact if_of_matches hb h hlen

/-! ### Bodies -/

/-- **What matches a body is taken**, with a budget greater than its tokens. -/
theorem siblings_takes (place : Nat → Position) : ∀ budget : Nat,
    (siblings place budget).CompletesBody budget
  | 0 => fun _ _ hlt => absurd hlt (Nat.not_lt_zero _)
  | budget + 1 => by
    have ih := siblings_takes place budget
    intro ts h hlen
    obtain ⟨parts, rfl, hparts⟩ := matches_many.mp (matches_phrase.mp h)
    cases parts with
    | nil => exact ⟨[], siblings_end place budget⟩
    | cons us parts =>
      obtain ⟨hus, hrest⟩ := List.forall_mem_cons.mp hparts
      rw [List.flatten_cons, List.length_append] at hlen
      have hbody : (phrase .commands).Matches parts.flatten :=
        matches_phrase.mpr (matches_many.mpr ⟨parts, rfl, hrest⟩)
      rcases matches_either.mp hus with hus | hus
      · obtain ⟨tok, htok, rfl⟩ := matches_token.mp hus
        rw [List.length_singleton] at hlen
        obtain ⟨cs, hcs⟩ := ih _ hbody (by omega)
        exact ⟨_, siblings_data htok hcs⟩
      · obtain ⟨o, ws, ho, rfl, hws⟩ := matches_token_both.mp (matches_phrase.mp hus)
        rw [List.length_cons] at hlen
        obtain ⟨kw, us, rfl, hends, hc⟩ : CompletesTag place _ budget ws :=
          keyworded_of_matches (CompletesBody.marked ih) hws (by omega)
        obtain ⟨c, hc⟩ := hc o ho
        obtain ⟨cs, hcs⟩ := ih _ hbody (by omega)
        exact ⟨c :: cs, siblings_command ho hends hc hcs⟩

end Script
end ClearSilver
