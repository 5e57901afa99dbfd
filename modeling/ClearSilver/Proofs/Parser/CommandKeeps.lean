/-
# What the scripts of commands keep

The tokens of a command record it: its texts, the positions of its tag and of
the tags below it, and no block, for a block that its tag opens is closed by
its close tag. The script behind a keyword is given the two tokens that begin
the tag, so its relation is told with these in front. The branches of an `if`
tag nest to the right, so they are recorded with what comes behind them.

Key theorems: `Script.tag?_keeps`, `Script.siblings_keeps`, `Script.commands_keeps`.
-/
import ClearSilver.Proofs.Parser.CommandReads
import ClearSilver.Proofs.Parser.ExpressionKeeps

namespace ClearSilver

/-- The expressions of the bounds of a loop. -/
def Bounds.nodes (b : Bounds) : List Node := b.fields.flatMap (·.2.held)

namespace Script

variable {β : Type} {place : Nat → Position} {mayLeaveOpen : Prop} {R : List Token → β → Prop}

/-! ### Parts of a tag -/

theorem delimiter_keeps (place : Nat → Position) (keyword : Token) (allowHard : Bool) :
    (delimiter keyword allowHard).Keeps (fun us _ => RecordsAll place us []) mayLeaveOpen := by
  unfold delimiter
  refine .accept (fun tok htok => ?_) ?_
  · rw [List.mem_singleton] at htok
    exact .done (.mark (by rw [htok]; rfl) .nil)
  cases allowHard with
  | false => exact .reject
  | true =>
    refine .accept (fun tok htok => ?_) .reject
    rw [List.mem_singleton] at htok
    exact .done (.mark (by rw [htok]; rfl) .nil)

theorem expect_keeps (place : Nat → Position) {kind : Token.Kind} (hkind : kind.isMark = true)
    (expected : Expectation) :
    (expect kind expected).Keeps (fun us _ => RecordsAll place us []) mayLeaveOpen := by
  refine (Keeps.expect kind expected).weaken fun us tok htok => ?_
  rw [htok.1]
  exact .mark (by rw [htok.2]; exact hkind) .nil

theorem endTag_keeps (place : Nat → Position) :
    endTag.Keeps (fun us _ => RecordsAll place us []) mayLeaveOpen :=
  (expect_keeps place rfl .tagClose).map fun _ _ h => h

theorem closeBlock_keeps (place : Nat → Position) (openTag : Token) {keyword : Token} {k : Keyword}
    (hk : keyword.kind = .keyword k) :
    (closeBlock openTag keyword).Keeps (fun us _ => RecordsNodes place us [] List.tail) True := by
  unfold closeBlock
  refine .ask (fun _ => .unclosed trivial _ _) ?_
  refine .bind (.expect _ _) fun o us ho => .bind (.expect _ _) fun slash vs hslash => ?_
  refine .bind (expect_keeps place (by rw [hk]; rfl) _) fun _ ws hws => ?_
  refine (endTag_keeps place).weaken fun xs _ hxs => ?_
  have hslashMark : slash.kind.isMark = true := by rw [hslash.2]; rfl
  have hall := Records.unpositioned ho.2 hslashMark (by rw [hslash.2]; rfl) (hws.append hxs)
  have hclosed : id ∘ blocksBehind o slash = List.tail := by
    funext bs
    simp [blocksBehind, hslash.2]
  rw [hclosed] at hall
  rw [ho.1, hslash.1]
  exact hall

theorem records_ofList {us : List Token} {cs : List Command}
    (h : RecordsAll place us (cs.map .command)) : RecordsAll place us [.command (.ofList cs)] := by
  unfold Command.ofList
  split
  · exact .node rfl h
  · exact h
  · refine .node rfl ?_
    have hchildren : (Node.command (.multiple cs)).children = cs.map .command := List.append_nil _
    rw [hchildren]
    exact h

/-- Do the tokens that the script takes record the commands it gives? -/
abbrev KeepsBody (place : Nat → Position) (mayLeaveOpen : Prop) (body : Script (List Command)) :
    Prop :=
  body.Keeps (fun us cs => RecordsAll place us (cs.map .command)) mayLeaveOpen

theorem enclosed_keeps {body : Script (List Command)} (hb : body.KeepsBody place True)
    (openTag : Token) {keyword : Token} {k : Keyword} (hk : keyword.kind = .keyword k) :
    (enclosed body openTag keyword).Keeps
      (fun us c => RecordsNodes place us [.command c] List.tail) True := by
  unfold enclosed
  refine .bind hb fun cs us hcs => ?_
  refine (closeBlock_keeps place openTag hk).map fun vs _ hclose => ?_
  exact (records_ofList hcs).append hclose

theorem macroWords_keeps (place : Nat → Position) : ∀ budget : Nat,
    (macroWords budget).Keeps (fun us ws => Records place us ws [] id) mayLeaveOpen
  | 0 => .exhausted
  | budget + 1 => by
    unfold macroWords
    refine .accept (fun tok htok => ?_) (.done .nil)
    rw [List.mem_singleton] at htok
    refine .bind (.expect _ _) fun word us hword => ?_
    refine (macroWords_keeps place budget).map fun vs ws hws => ?_
    have hone : Records place [word] [word.text] [] id := .ofText (by rw [hword.2]; rfl)
    rw [hword.1]
    exact .mark (by rw [htok]; rfl) (hone.append hws)

theorem macroName_keeps (place : Nat → Position) (budget : Nat) :
    (macroName budget).Keeps (fun us n => Records place us n.words [] id) mayLeaveOpen := by
  unfold macroName
  refine .bind (.expect _ _) fun word us hword => ?_
  refine (macroWords_keeps place budget).map fun vs ws hws => ?_
  have hone : Records place [word] [word.text] [] id := .ofText (by rw [hword.2]; rfl)
  rw [hword.1]
  exact hone.append hws

theorem target_keeps (place : Nat → Position) (budget : Nat) :
    (target budget).KeepsPath place mayLeaveOpen := by
  unfold target
  refine .bind (variablePath_keeps place budget) fun v us hv => ?_
  exact (expect_keeps place rfl _).map fun vs _ hvs => hv.append hvs

theorem bounds_keeps (place : Nat → Position) (budget : Nat) :
    (bounds budget).Keeps (fun us b => RecordsAll place us b.nodes) mayLeaveOpen := by
  have he : (expression budget).KeepsExpr place mayLeaveOpen := expression_keeps place budget
  unfold bounds
  refine .bind he fun first us hfirst => .accept (fun tok htok => ?_) ?_
  · rw [List.mem_singleton] at htok
    refine .bind he fun second vs hsecond => ?_
    have hrange : RecordsAll place (us ++ tok :: vs) [.expr first, .expr second] :=
      hfirst.append (Records.mark (by rw [htok]; rfl) hsecond)
    refine .accept (fun tok' htok' => ?_) (.done ?_)
    · rw [List.mem_singleton] at htok'
      refine he.map fun ws third hthird => ?_
      have hmark : tok'.kind.isMark = true := by rw [htok']; rfl
      have hall := hrange.append (Records.mark hmark hthird)
      rw [List.append_assoc] at hall
      exact hall
    · rw [List.append_nil]
      exact hrange
  · refine .done ?_
    rw [List.append_nil]
    exact hfirst

/-! ### Tags -/

theorem headedTag_keeps (place : Nat → Position) (budget : Nat) (keyword : Token) :
    (headedTag budget keyword).KeepsExpr place mayLeaveOpen := by
  unfold headedTag
  refine .bind (delimiter_keeps place keyword false) fun _ us hus => ?_
  refine .bind (expression_keeps place budget) fun e vs he => ?_
  exact (endTag_keeps place).map fun ws _ hws => hus.append (he.append hws)

theorem bindingTag_keeps (place : Nat → Position) (budget : Nat) (keyword : Token) :
    (bindingTag budget keyword).Keeps (fun us p => RecordsAll place us [.path p.1, .expr p.2])
      mayLeaveOpen := by
  unfold bindingTag
  refine .bind (delimiter_keeps place keyword false) fun _ us hus => ?_
  refine .bind (target_keeps place budget) fun v vs hv => ?_
  refine .bind (expression_keeps place budget) fun e ws he => ?_
  exact (endTag_keeps place).map fun xs _ hxs => hus.append (hv.append (he.append hxs))

theorem loopHead_keeps (place : Nat → Position) (budget : Nat) (keyword : Token) :
    (loopHead budget keyword).Keeps (fun us p => RecordsAll place us (.path p.1 :: p.2.nodes))
      mayLeaveOpen := by
  unfold loopHead
  refine .bind (delimiter_keeps place keyword false) fun _ us hus => ?_
  refine .bind (target_keeps place budget) fun v vs hv => ?_
  refine .bind (bounds_keeps place budget) fun b ws hbs => ?_
  refine (endTag_keeps place).map fun xs _ hxs => ?_
  have hall := hus.append (hv.append (hbs.append hxs))
  rw [List.append_nil] at hall
  exact hall

theorem defineHead_keeps (place : Nat → Position) (budget : Nat) (keyword : Token) :
    (defineHead budget keyword).Keeps (fun us p => Records place us
      (p.1.words ++ (p.2.map Node.path).flatMap Node.texts)
      ((p.2.map Node.path).flatMap Node.positions) id) mayLeaveOpen := by
  unfold defineHead
  refine .bind (delimiter_keeps place keyword false) fun _ us hus => ?_
  refine .bind (macroName_keeps place budget) fun n vs hn => ?_
  refine .bind (expect_keeps place rfl _) fun _ ws hws => ?_
  refine .bind (parenthesized_keeps (variablePath_keeps place budget) budget) fun ps xs hps => ?_
  refine (endTag_keeps place).map fun ys _ hys => ?_
  have hlist := hws.append (hps.append hys)
  rw [List.append_nil] at hlist
  exact Records.append hus (hn.append hlist)

/-- A tag that begins with some kind of token is taken if it stands there. -/
theorem Keeps.tagAhead {kind : Token.Kind} {next : Bool → Script β}
    {k : Token → Token → Script β} (hnext : next true = advance.bind fun t => advance.bind (k t))
    (htag : ∀ t t' : Token, t.kind = .tagOpen → t'.kind = kind →
      (k t t').Keeps (fun us b => R (t :: t' :: us) b) mayLeaveOpen)
    (hnone : (next false).Keeps R mayLeaveOpen) :
    ((Script.tagAhead kind).bind next).Keeps R mayLeaveOpen := by
  intro ts
  rcases tagAhead_cases hnext ts with ⟨-, hfed⟩ | ⟨t, -, -, hfed⟩ |
    ⟨t, t', rest, rfl, ht, ht', hfed⟩ | hfed <;> rw [hfed]
  · exact .waiting
  · exact .waiting
  · exact Fed.Keeps.behind [t, t'] (htag t t' ht ht' rest)
  · exact hnone ts

/-! ### Branches -/

section

variable {body : Script (List Command)} (hb : body.KeepsBody place True)
include hb

/-- The tokens of the branches record them with what comes behind them. -/
theorem branches_keeps {condition : Script Expr} (hc : condition.KeepsExpr place True) :
    ∀ (budget : Nat) (openTag keyword : Token), openTag.kind = .tagOpen →
      keyword.kind.isMark = true → isPositioned keyword.kind = true →
      (branches place body condition budget openTag keyword).Keeps
        (fun us bs => ∀ vs c f, RecordsNodes place vs [.command c] f →
          RecordsNodes place (openTag :: keyword :: (us ++ vs)) [.command (Branch.chain bs c)]
            (f ∘ blocksBehind openTag keyword)) True
  | 0, _, _, _, _, _ => .exhausted
  | budget + 1, openTag, keyword, ho, hk, hpos => by
    have htag : ∀ {us vs ws : List Token} {e : Expr} {cs : List Command} {c : Command}
        {f : List OpenBlock → List OpenBlock}, RecordsAll place us [.expr e] →
        RecordsAll place vs (cs.map .command) → RecordsNodes place ws [.command c] f →
        RecordsNodes place (openTag :: keyword :: (us ++ vs ++ ws))
          [.command (.ifElse (place openTag.offset) e (.ofList cs) c)]
          (f ∘ blocksBehind openTag keyword) := by
      intro us vs ws e cs c f he hcs h
      have hnodes : RecordsAll place (us ++ vs) [.expr e, .command (.ofList cs)] :=
        he.append (records_ofList hcs)
      exact .command rfl ho hk hpos (hnodes.append h)
    unfold branches
    refine .bind (delimiter_keeps place keyword false) fun _ us hus => ?_
    refine .bind hc fun test vs htest => ?_
    refine .bind (endTag_keeps place) fun _ ws hws => ?_
    have hhead := hus.append (htest.append hws)
    refine .bind hb fun cs xs hcs => .tagAhead rfl (fun t t' ht ht' => ?_) ?_
    · refine (branches_keeps hc budget t t' ht (by rw [ht']; rfl) (by rw [ht']; rfl)).map
        fun ys bs hbs zs c f hrest => ?_
      have hmore := hbs zs c f hrest
      have hid : blocksBehind t t' = id := by
        funext bs
        simp [blocksBehind, ht', Keyword.opensBlock]
      rw [hid] at hmore
      have hall := htag hhead hcs hmore
      simpa [Branch.chain] using hall
    · refine .done fun ys c f hrest => ?_
      have hall := htag hhead hcs hrest
      simpa [Branch.chain] using hall

theorem elseBranch_keeps :
    (elseBranch body).Keeps (fun us c => RecordsAll place us [.command c]) True := by
  unfold elseBranch
  refine .tagAhead rfl (fun t t' ht ht' => ?_) (.done (.node rfl .nil))
  refine .bind (endTag_keeps place) fun _ us hus => hb.map fun vs cs hcs => ?_
  have hid : blocksBehind t t' = id := by
    funext bs
    simp [blocksBehind, ht', Keyword.opensBlock]
  have hall := Records.unpositioned ht (by rw [ht']; rfl) (by rw [ht']; rfl)
    (hus.append (records_ofList hcs))
  rw [hid] at hall
  exact hall

end

/-! ### Commands -/

section

variable {body : Script (List Command)} {openTag keyword : Token} {k : Keyword} (budget : Nat)
  (ho : openTag.kind = .tagOpen)
include ho

section

variable (hk : keyword.kind.beginsLone = true)
include hk

theorem output_keeps (form : OutputForm) : ((headedTag budget keyword).bind fun e =>
    done (.output form (place openTag.offset) e)).Keeps
    (fun us c => RecordsAll place (openTag :: keyword :: us) [.command c]) mayLeaveOpen :=
  (headedTag_keeps place budget keyword).map fun _ _ he => .lone rfl ho hk he

theorem assign_keeps : ((bindingTag budget keyword).bind fun p =>
    done (.assign (place openTag.offset) p.1 p.2)).Keeps
    (fun us c => RecordsAll place (openTag :: keyword :: us) [.command c]) mayLeaveOpen :=
  (bindingTag_keeps place budget keyword).map fun _ _ hp => .lone rfl ho hk hp

theorem name_keeps : ((delimiter keyword false).bind fun _ => (variablePath budget).bind fun v =>
    endTag.bind fun _ => done (.name (place openTag.offset) v)).Keeps
    (fun us c => RecordsAll place (openTag :: keyword :: us) [.command c]) mayLeaveOpen := by
  refine .bind (delimiter_keeps place keyword false) fun _ us hus => ?_
  refine .bind (variablePath_keeps place budget) fun v vs hv => ?_
  exact (endTag_keeps place).map fun ws _ hws => .lone rfl ho hk (hus.append (hv.append hws))

theorem inclusion_keeps (whenSoft whenHard : IncludeForm) :
    ((delimiter keyword true).bind fun isHard =>
    (expression budget).bind fun e => endTag.bind fun _ =>
      done (.inclusion (if isHard then whenHard else whenSoft) (place openTag.offset) e)).Keeps
    (fun us c => RecordsAll place (openTag :: keyword :: us) [.command c]) mayLeaveOpen := by
  refine .bind (delimiter_keeps place keyword true) fun isHard us hus => ?_
  refine .bind (expression_keeps place budget) fun e vs he => ?_
  exact (endTag_keeps place).map fun ws _ hws => .lone rfl ho hk (hus.append (he.append hws))

theorem comment_keeps : ((accept [.comment]).bind fun text => endTag.bind fun _ =>
    done (.comment (place openTag.offset) (text.map (·.text)))).Keeps
    (fun us c => RecordsAll place (openTag :: keyword :: us) [.command c]) mayLeaveOpen := by
  refine .accept (fun tok htok => ?_) ?_
  · rw [List.mem_singleton] at htok
    refine (endTag_keeps place).map fun us _ hus => ?_
    have htext : Records place [tok] [tok.text] [] id := .ofText (by rw [htok]; rfl)
    exact .lone rfl ho hk (htext.append hus)
  · exact (endTag_keeps place).map fun us _ hus => .lone rfl ho hk hus

theorem contentType_keeps : ((delimiter keyword false).bind fun _ =>
    (expect .string .string).bind fun tok => endTag.bind fun _ =>
      done (.contentType (place openTag.offset) (unquoted tok.text))).Keeps
    (fun us c => RecordsAll place (openTag :: keyword :: us) [.command c]) mayLeaveOpen := by
  refine .bind (delimiter_keeps place keyword false) fun _ us hus => ?_
  refine .bind (.expect _ _) fun tok vs htok => ?_
  refine (endTag_keeps place).map fun ws _ hws => ?_
  rw [htok.1]
  exact .lone rfl ho hk (Records.append hus ((Records.ofString htok.2).append hws))

theorem call_keeps : ((delimiter keyword false).bind fun _ => (macroName budget).bind fun n =>
    (expect (.symbol .leftParen) (.symbol .leftParen)).bind fun _ =>
    (parenthesized (expression budget) budget).bind fun es => endTag.bind fun _ =>
      done (.call (place openTag.offset) n es)).Keeps
    (fun us c => RecordsAll place (openTag :: keyword :: us) [.command c]) mayLeaveOpen := by
  refine .bind (delimiter_keeps place keyword false) fun _ us hus => ?_
  refine .bind (macroName_keeps place budget) fun n vs hn => ?_
  refine .bind (expect_keeps place rfl _) fun _ ws hws => ?_
  refine .bind (parenthesized_keeps (expression_keeps place budget) budget) fun es xs hes => ?_
  refine (endTag_keeps place).map fun ys _ hys => .lone rfl ho hk ?_
  have hall := Records.append hus (hn.append (Records.append hws (Records.append hes hys)))
  simpa [Command.ownTexts, Node.ownTexts, Node.children, Node.fields, Command.fields,
    FieldValue.held] using hall

end

section

variable (hb : body.KeepsBody place True) (hk : keyword.kind = .keyword k)
  (hopens : k.opensBlock = true)
include hb hk hopens

theorem wrap_keeps (form : WrapForm) : ((headedTag budget keyword).bind fun e =>
    (enclosed body openTag keyword).bind fun b =>
      done (.wrap form (place openTag.offset) e b)).Keeps
    (fun us c => RecordsAll place (openTag :: keyword :: us) [.command c]) True := by
  refine .bind (headedTag_keeps place budget keyword) fun e us he => ?_
  exact (enclosed_keeps hb openTag hk).map fun vs c hc => .block rfl ho hk hopens (he.append hc)

theorem bind_keeps (form : BindForm) : ((bindingTag budget keyword).bind fun p =>
    (enclosed body openTag keyword).bind fun b =>
      done (.bind form (place openTag.offset) p.1 p.2 b)).Keeps
    (fun us c => RecordsAll place (openTag :: keyword :: us) [.command c]) True := by
  refine .bind (bindingTag_keeps place budget keyword) fun p us hp => ?_
  exact (enclosed_keeps hb openTag hk).map fun vs c hc => .block rfl ho hk hopens (hp.append hc)

theorem inline_keeps : (endTag.bind fun _ => (enclosed body openTag keyword).bind fun c =>
    done (.inline (place openTag.offset) c)).Keeps
    (fun us c => RecordsAll place (openTag :: keyword :: us) [.command c]) True := by
  refine .bind (endTag_keeps place) fun _ us hus => ?_
  exact (enclosed_keeps hb openTag hk).map fun vs c hc => .block rfl ho hk hopens (hus.append hc)

theorem loop_keeps : ((delimiter keyword false).bind fun _ => (target budget).bind fun v =>
    (bounds budget).bind fun b => endTag.bind fun _ =>
    (enclosed body openTag keyword).bind fun c =>
      done (.loop (place openTag.offset) v b c)).Keeps
    (fun us c => RecordsAll place (openTag :: keyword :: us) [.command c]) True := by
  rw [loopHead_bind]
  refine .bind (loopHead_keeps place budget keyword) fun p us hp => ?_
  refine (enclosed_keeps hb openTag hk).map fun vs c hc => .block rfl ho hk hopens ?_
  have hchildren : (Node.command (.loop (place openTag.offset) p.1 p.2 c)).children =
      .path p.1 :: p.2.nodes ++ [.command c] := by
    simp [Node.children, Node.fields, Command.fields, Command.bodyField, FieldValue.held,
      Bounds.nodes]
  rw [hchildren]
  exact hp.append hc

theorem define_keeps : ((delimiter keyword false).bind fun _ => (macroName budget).bind fun n =>
    (expect (.symbol .leftParen) (.symbol .leftParen)).bind fun _ =>
    (parenthesized (variablePath budget) budget).bind fun vs => endTag.bind fun _ =>
    (enclosed body openTag keyword).bind fun c =>
      done (.define (place openTag.offset) n vs c)).Keeps
    (fun us c => RecordsAll place (openTag :: keyword :: us) [.command c]) True := by
  rw [defineHead_bind]
  refine .bind (defineHead_keeps place budget keyword) fun p us hp => ?_
  refine (enclosed_keeps hb openTag hk).map fun vs c hc => .block rfl ho hk hopens ?_
  have hchildren : (Node.command (.define (place openTag.offset) p.1 p.2 c)).children =
      p.2.map .path ++ [.command c] := rfl
  rw [hchildren, List.flatMap_append, List.flatMap_append, ← List.append_assoc]
  exact Records.append hp hc

theorem if_keeps : ((branches place body (expression budget) budget openTag keyword).bind fun bs =>
    (elseBranch body).bind fun c => (closeBlock openTag keyword).bind fun _ =>
      done (Branch.chain bs c)).Keeps
    (fun us c => RecordsAll place (openTag :: keyword :: us) [.command c]) True := by
  have hpos : isPositioned keyword.kind = true := by
    rw [hk]
    cases k <;> first | rfl | cases hopens
  refine .bind (branches_keeps hb (expression_keeps place budget) budget openTag keyword ho
    (by rw [hk]; rfl) hpos) fun bs us hbs => ?_
  refine .bind (elseBranch_keeps hb) fun c vs hc => ?_
  refine (closeBlock_keeps place openTag hk).map fun ws _ hclose => ?_
  have hall := hbs (vs ++ ws) c List.tail (hc.append hclose)
  have hclosed : List.tail ∘ blocksBehind openTag keyword = id := by
    funext bs
    simp [blocksBehind, hk, hopens]
  rwa [hclosed] at hall

end

end

/-- **The script behind a keyword records its command** with the beginning of
the tag. It leaves a block open only if the keyword opens one. -/
theorem tag?_keeps {body : Script (List Command)} {budget : Nat} (hb : body.KeepsBody place True)
    {openTag keyword : Token} (ho : openTag.kind = .tagOpen) {rest : Script Command}
    (h : tag? place body budget openTag keyword = some rest) :
    rest.Keeps (fun us c => RecordsAll place (openTag :: keyword :: us) [.command c])
      (∃ k, keyword.kind = .keyword k ∧ k.opensBlock = true) := by
  have hmono : ∀ {s : Script Command} {k : Keyword}, keyword.kind = .keyword k →
      k.opensBlock = true →
      s.Keeps (fun us c => RecordsAll place (openTag :: keyword :: us) [.command c]) True →
      s.Keeps (fun us c => RecordsAll place (openTag :: keyword :: us) [.command c])
        (∃ k, keyword.kind = .keyword k ∧ k.opensBlock = true) :=
    fun hk hopens hs => hs.mono fun _ => ⟨_, hk, hopens⟩
  unfold tag? at h
  simp only at h
  split at h
  all_goals (rename_i hk; try cases h)
  · exact comment_keeps ho (by rw [hk]; rfl)
  · exact output_keeps budget ho (by rw [hk]; rfl) .var
  · exact output_keeps budget ho (by rw [hk]; rfl) .lvar
  · exact output_keeps budget ho (by rw [hk]; rfl) .evar
  · exact output_keeps budget ho (by rw [hk]; rfl) .uvar
  · exact assign_keeps budget ho (by rw [hk]; rfl)
  · exact name_keeps budget ho (by rw [hk]; rfl)
  · exact hmono hk rfl (wrap_keeps budget ho hb hk rfl .escape)
  · exact hmono hk rfl (wrap_keeps budget ho hb hk rfl .autoescape)
  · exact hmono hk rfl (wrap_keeps budget ho hb hk rfl .alt)
  · exact hmono hk rfl (bind_keeps budget ho hb hk rfl .scope)
  · exact hmono hk rfl (bind_keeps budget ho hb hk rfl .each)
  · exact hmono hk rfl (loop_keeps budget ho hb hk rfl)
  · exact hmono hk rfl (define_keeps budget ho hb hk rfl)
  · exact call_keeps budget ho (by rw [hk]; rfl)
  · exact hmono hk rfl (if_keeps budget ho hb hk rfl)
  · exact inclusion_keeps budget ho (by rw [hk]; rfl) .soft .hard
  · exact inclusion_keeps budget ho (by rw [hk]; rfl) .lsoft .lhard
  · exact contentType_keeps ho (by rw [hk]; rfl)
  · exact hmono hk rfl (inline_keeps ho hb hk rfl)

/-! ### Bodies -/

theorem commandOver_keeps {body : Script (List Command)} (hb : body.KeepsBody place True)
    (budget : Nat) : (commandOver place body budget).Keeps
      (fun us c => RecordsAll place us [.command c]) True := by
  unfold commandOver
  refine .bind (.expect _ _) fun openTag us ho => .any_token fun keyword => ?_
  rw [ho.1]
  cases ht : tag? place body budget openTag keyword with
  | none => exact fun _ => .unexpected _ _
  | some rest =>
    have hrest := (tag?_keeps hb ho.2 ht).mono fun _ => trivial
    exact fun ts => hrest ts

/-- **Siblings are recorded** by the tokens they are read from. -/
theorem siblings_keeps (place : Nat → Position) : ∀ budget : Nat,
    (siblings place budget).KeepsBody place True
  | 0 => .exhausted
  | budget + 1 => by
    have ih := siblings_keeps place budget
    have hbody : (marked (siblings place budget)).KeepsBody place True := by
      intro ts
      rw [feed_marked]
      exact ih ts
    intro ts
    obtain _ | ⟨t, ts⟩ := ts
    · rw [siblings_succ]
      exact .waiting
    rw [feed_siblings_cons]
    split
    · rename_i hk
      have hdata : RecordsAll place [t] [.command (.data t.text)] :=
        .node rfl (.ofText (by rw [hk]; rfl))
      have hrest := ih.map (e := fun cs => Command.data t.text :: cs)
        (R := fun us cs => RecordsAll place ([t] ++ us) (cs.map .command))
        fun us cs hcs => hdata.append hcs
      exact Fed.Keeps.behind [t]
        (R := fun us (cs : List Command) => RecordsAll place us (cs.map .command)) (hrest ts)
    split
    · cases ts with
      | nil => exact .waiting
      | cons t' ts =>
        simp only
        split
        · exact .gave rfl .nil
        · refine Keeps.bind (commandOver_keeps hbody budget) (fun c us hc => ?_) _
          exact ih.map fun vs cs hcs => hc.append hcs
    · exact .gave rfl .nil

/-- **A body is recorded** by the tokens it is read from. -/
theorem commands_keeps (place : Nat → Position) (budget : Nat) :
    (commands place budget).KeepsBody place True := by
  intro ts
  rw [commands, feed_marked]
  exact siblings_keeps place budget ts

end Script
end ClearSilver
