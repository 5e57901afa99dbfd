/-
# What the scripts of commands read

Each script of a tag or a block reads its form of the grammar, and the
commands it gives are canonical. The bodies of blocks are read with less
budget, so the siblings of a body read by induction on it. A body ends where a
tag closes or continues a block; up to there no literal text stands beside
literal text if none does among the tokens.

Key definitions: `Command.IsTag`, `Script.BranchCanonical`, `Script.Siblings`.
Key theorems: `Script.tag?_reads`, `Script.siblings_reads`, `Script.commands_reads`.
-/
import ClearSilver.Parser.Command
import ClearSilver.Proofs.Parser.ExpressionReads

namespace ClearSilver

open Form in
/-- A further branch of an `if` tag. -/
def Form.elseIfBranch : Form :=
  sequence [token .tagOpen, tag .elseIf [expression], phrase .commands]

open Form in
/-- The form of the commands behind the opening of their tag. -/
def Form.keyworded : Form :=
  anyOf (sequence [token .commentStart, optional (token .comment), token .tagClose]) commandForms

/-- A canonical command that is a tag: it can stand beside others and is no
literal text. -/
def Command.IsTag (c : Command) : Prop :=
  c.isSibling = true ∧ c.isData = false ∧ c.Canonical

namespace Script

open Form

variable {α β : Type} {h : Form} {R : List Token → β → Prop} {s : Script α}

/-- What stands behind the keyword of a tag with these arguments. -/
abbrev tagRest (arguments : List Form) : Form :=
  sequence (token .softDelimiter :: (arguments ++ [token .tagClose]))

/-- What stands behind the keyword of a block with these arguments. -/
abbrev blockRest (k : Keyword) (arguments : List Form) : Form :=
  sequence (token .softDelimiter :: (arguments ++ [token .tagClose]) ++
    [phrase .commands, phrase (.close k)])

/-- `keyword: expression ?>` behind the keyword. -/
abbrev headed : Form := tagRest [Form.expression]

/-! ### Parts of a tag -/

theorem delimiter_reads (keyword : Token) :
    (delimiter keyword false).Reads (token .softDelimiter) fun _ _ => True := by
  unfold delimiter
  refine .accept (leads_nil rfl) (fun tok htok => ?_) (.reject (leads_nil rfl))
  rw [List.mem_singleton.mp htok]
  exact ⟨.empty, .done fun _ => trivial, within_both_empty _⟩

theorem anyDelimiter_reads (keyword : Token) : (delimiter keyword true).Reads
    (either (token .softDelimiter) (token .hardDelimiter)) fun _ _ => True := by
  unfold delimiter
  refine .accept (leads_nil rfl) (fun tok htok => ?_) ?_
  · rw [List.mem_singleton.mp htok]
    exact ⟨.empty, .done fun _ => trivial, (within_both_empty _).trans (within_left _ _)⟩
  refine .accept (leads_nil rfl) (fun tok htok => ?_) (.reject (leads_nil rfl))
  rw [List.mem_singleton.mp htok]
  exact ⟨.empty, .done fun _ => trivial, (within_both_empty _).trans (within_right _ _)⟩

theorem endTag_reads : endTag.Reads (token .tagClose) fun _ _ => True :=
  (Reads.expect .tagClose rfl).map fun _ _ _ _ => trivial

theorem closeBlock_reads (openTag : Token) {keyword : Token} {k : Keyword}
    (hk : keyword.kind = .keyword k) :
    (closeBlock openTag keyword).Reads (phrase (.close k)) fun _ _ => True := by
  have hclose : (closeBlock openTag keyword).Reads (Phrase.close k).form fun _ _ => True := by
    unfold closeBlock
    refine .ask (leads_nil rfl) (fun _ => .unclosed _ _) ?_
    refine .bind (.expect _ rfl) (leads_nil rfl) fun _ => ?_
    refine .bind (.expect _ rfl) (leads_nil rfl) fun _ => ?_
    rw [hk]
    refine .bind (.expect _ rfl) (leads_nil rfl) fun _ => ?_
    exact endTag_reads.weaken (.refl _) fun _ _ _ _ => by intros; trivial
  exact hclose.within (within_phrase _)

/-- What a block encloses is canonical. -/
theorem enclosed_reads {body : Script (List Command)}
    (hb : body.Reads (phrase .commands) fun _ cs => Command.Tidy cs) (openTag : Token)
    {keyword : Token} {k : Keyword} (hk : keyword.kind = .keyword k) :
    (enclosed body openTag keyword).Reads (both (phrase .commands) (phrase (.close k)))
      fun _ c => c.Canonical := by
  unfold enclosed
  refine .bind hb (leads_nil rfl) fun cs => ?_
  exact (closeBlock_reads openTag hk).map fun _ _ _ _ _ hcs _ => Command.canonical_ofList hcs

theorem macroWords_reads : ∀ budget : Nat,
    (macroWords budget).Reads (many (both (symbol .dot) (token .word)))
      fun _ ws => ws.all isPlainWord = true
  | 0 => .exhausted
  | budget + 1 => by
    unfold macroWords
    refine .accept (leads_nil rfl) (fun tok htok => ?_) ?_
    · refine ⟨both (token .word) (many (both (symbol .dot) (token .word))),
        .bind (.expect _ rfl) (leads_nil rfl) fun word => ?_, ?_⟩
      · refine (macroWords_reads budget).map fun _ ws _ hws _ hw _ _ => ?_
        rw [List.all_cons, hw.2.2.word hw.2.1, hws]
        rfl
      · rw [List.mem_singleton.mp htok]
        exact (assoc_within _ _ _).trans (within_many_more _)
    · exact (Reads.done (by rfl)).within (within_many_none _)

theorem macroName_reads (budget : Nat) :
    (macroName budget).Reads (phrase .macroName) fun _ n => n.words.all isPlainWord = true := by
  have hname : (macroName budget).Reads Phrase.macroName.form
      fun _ n => n.words.all isPlainWord = true := by
    unfold macroName
    refine .bind (.expect _ rfl) (leads_nil rfl) fun word => ?_
    refine (macroWords_reads budget).map fun _ ws _ hws _ hw _ => ?_
    rw [MacroName.words, List.all_cons, hw.2.2.word hw.2.1, hws]
    rfl
  exact hname.within (within_phrase _)

theorem target_reads (budget : Nat) :
    (target budget).Reads (both (phrase .path) (symbol .assign)) fun _ v => v.Canonical := by
  unfold target
  refine .bind (variablePath_reads budget) (leads_nil rfl) fun v => ?_
  exact (Reads.expect _ rfl).map fun _ _ _ _ _ hv _ => hv

theorem bounds_reads (budget : Nat) : (bounds budget).Reads
    (both Form.expression (optional (sequence [symbol .comma, Form.expression,
      optional (both (symbol .comma) Form.expression)]))) fun _ b => b.Canonical := by
  have he := expression_reads budget
  unfold bounds
  refine .bind he (leads_optional _) fun first => ?_
  refine .accept (leads_optional _) (fun tok htok => ?_) ?_
  · refine ⟨both Form.expression (optional (both (symbol .comma) Form.expression)),
      .bind he (leads_optional _) fun second => ?_, ?_⟩
    · refine .accept (leads_optional _) (fun tok htok => ?_) ?_
      · refine ⟨Form.expression, he.map fun _ _ _ hstep => ?_, ?_⟩
        · exact fun _ _ hstop _ _ _ hstart _ => ⟨hstart, hstop, hstep⟩
        · rw [List.mem_singleton.mp htok]
          exact within_left _ _
      · refine (Reads.done ?_).within (within_right _ _)
        exact fun _ hstop _ _ _ hstart _ => ⟨hstart, hstop⟩
    · rw [List.mem_singleton.mp htok]
      exact within_left _ _
  · exact (Reads.done fun _ hstop _ => hstop).within (within_right _ _)

/-! ### Tags -/

/-- `keyword: expression ?>` behind the keyword. -/
theorem headedTag_reads (budget : Nat) (keyword : Token) :
    (headedTag budget keyword).Reads headed fun _ e => e.Canonical := by
  unfold headedTag
  refine .bind (delimiter_reads keyword) (leads_nil rfl) fun _ => ?_
  refine .bind (expression_reads budget) (leads_nil rfl) fun e => ?_
  exact endTag_reads.map fun _ _ _ _ _ he _ _ _ _ => he

/-- `keyword: variable = expression ?>` behind the keyword. -/
theorem bindingTag_reads (budget : Nat) (keyword : Token) :
    (bindingTag budget keyword).Reads (tagRest binding)
      fun _ p => p.1.Canonical ∧ p.2.Canonical := by
  unfold bindingTag
  refine .bind (delimiter_reads keyword) (leads_nil rfl) fun _ => ?_
  refine .within (.bind (target_reads budget) (g := both Form.expression (token .tagClose))
    (leads_nil rfl) fun v => ?_) (within_assoc _ _ _)
  refine .bind (expression_reads budget) (leads_nil rfl) fun e => ?_
  exact endTag_reads.map fun _ _ _ _ _ he _ _ hv _ _ _ _ => ⟨hv, he⟩

/-- `keyword: variable = bounds ?>` behind the keyword. -/
def loopHead (budget : Nat) (keyword : Token) : Script (Variable × Bounds) := do
  let _ ← delimiter keyword false
  let bound ← target budget
  let limits ← bounds budget
  endTag
  return (bound, limits)

/-- The arguments of a loop. -/
abbrev loopArguments : List Form :=
  binding ++ [optional (sequence [symbol .comma, Form.expression,
    optional (both (symbol .comma) Form.expression)])]

theorem loopHead_bind (budget : Nat) (keyword : Token) (k : Variable → Bounds → Script β) :
    ((delimiter keyword false).bind fun _ => (target budget).bind fun v =>
      (bounds budget).bind fun b => endTag.bind fun _ => k v b) =
      (loopHead budget keyword).bind fun p => k p.1 p.2 := by
  simp only [loopHead, Bind.bind, bind_assoc]
  rfl

theorem loopHead_reads (budget : Nat) (keyword : Token) :
    (loopHead budget keyword).Reads (tagRest loopArguments)
      fun _ p => p.1.Canonical ∧ p.2.Canonical := by
  unfold loopHead
  refine .bind (delimiter_reads keyword) (leads_nil rfl) fun _ => ?_
  refine .within (.bind (target_reads budget) (leads_nil rfl) fun v => ?_) (within_assoc _ _ _)
  refine .within (.bind (bounds_reads budget) (leads_nil rfl) fun b => ?_) (within_assoc _ _ _)
  exact endTag_reads.map fun _ _ _ _ _ hb _ _ hv _ _ _ _ => ⟨hv, hb⟩

/-- `keyword: name(variables) ?>` behind the keyword. -/
def defineHead (budget : Nat) (keyword : Token) : Script (MacroName × List Variable) := do
  let _ ← delimiter keyword false
  let called ← macroName budget
  let _ ← expect (.symbol .leftParen) (.symbol .leftParen)
  let parameters ← parenthesized (variablePath budget) budget
  endTag
  return (called, parameters)

/-- The arguments of the definition of a macro. -/
abbrev defineArguments : List Form :=
  [phrase .macroName, symbol .leftParen, optional (separated (phrase .path)), symbol .rightParen]

theorem defineHead_bind (budget : Nat) (keyword : Token)
    (k : MacroName → List Variable → Script β) :
    ((delimiter keyword false).bind fun _ => (macroName budget).bind fun n =>
      (expect (.symbol .leftParen) (.symbol .leftParen)).bind fun _ =>
      (parenthesized (variablePath budget) budget).bind fun vs => endTag.bind fun _ => k n vs) =
      (defineHead budget keyword).bind fun p => k p.1 p.2 := by
  simp only [defineHead, Bind.bind, bind_assoc]
  rfl

theorem defineHead_reads (budget : Nat) (keyword : Token) :
    (defineHead budget keyword).Reads (tagRest defineArguments)
      fun _ p => p.1.words.all isPlainWord = true ∧ ∀ v ∈ p.2, v.Canonical := by
  unfold defineHead
  refine .bind (delimiter_reads keyword) (leads_nil rfl) fun _ => ?_
  refine .bind (macroName_reads budget) (leads_nil rfl) fun n => ?_
  refine .bind (.expect _ rfl) (leads_nil rfl) fun _ => ?_
  refine .within (.bind (parenthesized_reads (variablePath_reads budget) budget) (leads_nil rfl)
    fun vs => ?_) (within_assoc _ _ _)
  exact endTag_reads.map fun _ _ _ _ _ hvs _ _ _ _ _ hn _ _ _ _ => ⟨hn, hvs⟩

/-! ### Branches -/

theorem feed_tagAhead_of_ne {kind : Token.Kind} {t : Token} (ht : t.kind ≠ .tagOpen)
    (rest : List Token) : (tagAhead kind).feed (t :: rest) = .gave false (t :: rest) := by
  change (Script.bind (.done t) fun a => if a.kind = .tagOpen then _ else _).feed _ = _
  rw [Script.bind, if_neg ht]
  rfl

theorem feed_tagAhead_of_eq {kind : Token.Kind} {t : Token} (ht : t.kind = .tagOpen)
    (rest : List Token) : (tagAhead kind).feed (t :: rest) =
      (Script.look 1 fun t' => .done (decide (t'.kind = kind))).feed (t :: rest) := by
  change (Script.bind (.done t) fun a => if a.kind = .tagOpen then _ else _).feed _ = _
  rw [Script.bind, if_pos ht]
  rfl

/-- What follows a question for a tag: the tag is taken, or nothing is. -/
theorem tagAhead_cases {kind : Token.Kind} {next : Bool → Script β}
    {k : Token → Token → Script β} (hnext : next true = advance.bind fun t => advance.bind (k t))
    (ts : List Token) :
    (ts = [] ∧ ((tagAhead kind).bind next).feed ts = .waiting) ∨
    (∃ t, ts = [t] ∧ t.kind = .tagOpen ∧ ((tagAhead kind).bind next).feed ts = .waiting) ∨
    (∃ t t' rest, ts = t :: t' :: rest ∧ t.kind = .tagOpen ∧ t'.kind = kind ∧
      ((tagAhead kind).bind next).feed ts = (k t t').feed rest) ∨
    ((tagAhead kind).bind next).feed ts = (next false).feed ts := by
  rw [feed_bind]
  cases ts with
  | nil => exact .inl ⟨rfl, rfl⟩
  | cons t rest =>
    by_cases ht : t.kind = .tagOpen
    · rw [feed_tagAhead_of_eq ht]
      cases rest with
      | nil => exact .inr (.inl ⟨t, rfl, ht, rfl⟩)
      | cons t' rest =>
        simp only [feed, List.getElem?_cons_succ, List.getElem?_cons_zero, Fed.andThen]
        by_cases ht' : t'.kind = kind
        · rw [decide_eq_true ht', hnext]
          exact .inr (.inr (.inl ⟨t, t', rest, rfl, ht, ht', rfl⟩))
        · rw [decide_eq_false ht']
          exact .inr (.inr (.inr rfl))
    · rw [feed_tagAhead_of_ne ht]
      exact .inr (.inr (.inr rfl))

/-- A tag that begins with some kind of token is taken if it stands there. -/
theorem Reads.tagAhead {kind : Token.Kind} {next : Bool → Script β}
    {k : Token → Token → Script β} (hnext : next true = advance.bind fun t => advance.bind (k t))
    (hnil : h.Leads []) (hopen : ∀ t : Token, t.kind = .tagOpen → h.Leads [t])
    (htag : ∀ t t' : Token, t'.kind = kind → ∃ f,
      (k t t').Reads f (fun us b => Proper (t :: t' :: us) → R (t :: t' :: us) b) ∧
      (both (token .tagOpen) (both (token kind) f)).Within h)
    (hnone : (next false).Reads h R) : ((Script.tagAhead kind).bind next).Reads h R := by
  intro ts
  rcases tagAhead_cases hnext ts with ⟨rfl, hfed⟩ | ⟨t, rfl, ht, hfed⟩ |
    ⟨t, t', rest, rfl, ht, ht', hfed⟩ | hfed <;> rw [hfed]
  · exact .waiting hnil
  · exact .waiting (hopen t ht)
  · obtain ⟨f, hf, hw⟩ := htag t t' ht'
    have hinner := (hf rest).weaken (Q := fun us b => Proper (t' :: us) →
      Proper (t :: t' :: us) → R (t :: t' :: us) b) (.refl f) fun _ _ _ hR _ => hR
    rw [← ht, ← ht'] at hw
    exact hinner.cons.cons.weaken hw fun _ _ _ hR => hR
  · exact hnone ts

/-- A further branch and those behind it are more of them. -/
theorem elseIf_within : (both (token .tagOpen) (both (token (.keyword .elseIf)) (sequence
    [token .softDelimiter, Form.expression, token .tagClose, phrase .commands,
      many elseIfBranch]))).Within (many elseIfBranch) := by
  intro ks h
  cases h with
  | both ho h =>
  cases h with
  | both hk h =>
  cases h with
  | both hs h =>
  cases h with
  | both he h =>
  cases h with
  | both hc h =>
  cases h with
  | both hbody hmore =>
    have := Derives.more (f := elseIfBranch)
      (.both ho (.both (.both hk (.both hs (.both he hc))) hbody)) hmore
    simpa only [List.append_assoc] using this

/-- Are the parts of a branch canonical? -/
def BranchCanonical (b : Branch) : Prop := b.condition.Canonical ∧ b.block.Canonical

theorem branches_reads {place : Nat → Position} {body : Script (List Command)}
    {condition : Script Expr} (hb : body.Reads (phrase .commands) fun _ cs => Command.Tidy cs)
    (hc : condition.Reads Form.expression fun _ e => e.Canonical) :
    ∀ (budget : Nat) (openTag keyword : Token),
      (branches place body condition budget openTag keyword).Reads
        (sequence [token .softDelimiter, Form.expression, token .tagClose, phrase .commands,
          many elseIfBranch]) fun _ bs => bs ≠ [] ∧ ∀ b ∈ bs, BranchCanonical b
  | 0, _, _ => .exhausted
  | budget + 1, openTag, keyword => by
    unfold branches
    refine .bind (delimiter_reads keyword) (leads_nil rfl) fun _ => ?_
    refine .bind hc (leads_nil rfl) fun test => ?_
    refine .bind endTag_reads (leads_nil rfl) fun _ => ?_
    refine .bind hb (leads_nil rfl) fun block => ?_
    have hblock : ∀ {bs : List Branch}, Command.Tidy block → test.Canonical →
        (∀ b ∈ bs, BranchCanonical b) →
          ∀ b ∈ (⟨place openTag.offset, test, .ofList block⟩ : Branch) :: bs, BranchCanonical b :=
      fun hblock htest hbs =>
        List.forall_mem_cons.mpr ⟨⟨htest, Command.canonical_ofList hblock⟩, hbs⟩
    refine .tagAhead rfl (leads_nil rfl) (fun t ht => ?_) (fun t t' ht' => ?_) ?_
    · exact Leads.many (.cons ht (leads_nil rfl))
    · refine ⟨_, (branches_reads hb hc budget t t').map fun _ bs _ hbs => ?_, ?_⟩
      · exact fun _ _ hcs _ _ _ _ _ htest _ _ _ _ => ⟨List.cons_ne_nil _ _, hblock hcs htest hbs.2⟩
      · exact elseIf_within
    · refine (Reads.done ?_).within (within_many_none _)
      exact fun _ hcs _ _ _ _ _ htest _ _ _ _ => ⟨List.cons_ne_nil _ _, hblock hcs htest (by simp)⟩

theorem canonical_chain : ∀ {bs : List Branch} {otherwise : Command},
    (∀ b ∈ bs, BranchCanonical b) → otherwise.Canonical → (Branch.chain bs otherwise).Canonical
  | [], _, _, ho => ho
  | b :: bs, _, hbs, ho => by
    obtain ⟨hb, hbs⟩ := List.forall_mem_cons.mp hbs
    exact ⟨hb.1, hb.2, canonical_chain hbs ho⟩

theorem elseBranch_reads {body : Script (List Command)}
    (hb : body.Reads (phrase .commands) fun _ cs => Command.Tidy cs) :
    (elseBranch body).Reads (optional (sequence
      [token .tagOpen, Form.keyword .elseTag, token .tagClose, phrase .commands]))
      fun _ c => c.Canonical := by
  unfold elseBranch
  refine .tagAhead rfl (leads_optional _) (fun t ht => ?_) (fun t t' ht' => ?_) ?_
  · exact Leads.within (.cons ht (leads_nil rfl)) (within_left _ _)
  · refine ⟨both (token .tagClose) (phrase .commands),
      .bind endTag_reads (leads_nil rfl) fun _ => ?_, within_left _ _⟩
    exact hb.map fun _ _ _ hcs _ _ _ _ => Command.canonical_ofList hcs
  · exact (Reads.done (by trivial)).within (within_right _ _)

/-! ### Commands -/

theorem isTag_chain {bs : List Branch} {otherwise : Command} (hne : bs ≠ [])
    (hbs : ∀ b ∈ bs, BranchCanonical b) (ho : otherwise.Canonical) :
    (Branch.chain bs otherwise).IsTag := by
  refine ⟨?_, ?_, canonical_chain hbs ho⟩
  · cases bs with
    | nil => exact absurd rfl hne
    | cons b bs => rfl
  · cases bs with
    | nil => exact absurd rfl hne
    | cons b bs => rfl

section

variable {place : Nat → Position} {body : Script (List Command)} {openTag keyword : Token}
  {k : Keyword} (budget : Nat) (position : Position)

theorem output_reads (form : OutputForm) : ((headedTag budget keyword).bind fun e =>
    done (.output form position e)).Reads headed fun _ c => Command.IsTag c :=
  (headedTag_reads budget keyword).map fun _ _ _ he => ⟨rfl, rfl, he⟩

theorem wrap_reads (hb : body.Reads (phrase .commands) fun _ cs => Command.Tidy cs)
    (hk : keyword.kind = .keyword k) (form : WrapForm) : ((headedTag budget keyword).bind fun e =>
      (enclosed body openTag keyword).bind fun b => done (.wrap form position e b)).Reads
      (both headed (both (phrase .commands) (phrase (.close k)))) fun _ c => Command.IsTag c := by
  refine .bind (headedTag_reads budget keyword) (leads_nil rfl) fun e => ?_
  exact (enclosed_reads hb openTag hk).map fun _ _ _ hc _ he _ => ⟨rfl, rfl, he, hc⟩

theorem bind_reads (hb : body.Reads (phrase .commands) fun _ cs => Command.Tidy cs)
    (hk : keyword.kind = .keyword k) (form : BindForm) : ((bindingTag budget keyword).bind fun p =>
      (enclosed body openTag keyword).bind fun b => done (.bind form position p.1 p.2 b)).Reads
      (both (tagRest binding) (both (phrase .commands) (phrase (.close k))))
      fun _ c => Command.IsTag c := by
  refine .bind (bindingTag_reads budget keyword) (leads_nil rfl) fun p => ?_
  exact (enclosed_reads hb openTag hk).map fun _ _ _ hc _ hp _ => ⟨rfl, rfl, hp.1, hp.2, hc⟩

theorem inclusion_reads (whenSoft whenHard : IncludeForm) :
    ((delimiter keyword true).bind fun isHard =>
    (expression budget).bind fun e => endTag.bind fun _ =>
      done (.inclusion (if isHard then whenHard else whenSoft) position e)).Reads
      (sequence [either (token .softDelimiter) (token .hardDelimiter), Form.expression,
        token .tagClose]) fun _ c => Command.IsTag c := by
  refine .bind (anyDelimiter_reads keyword) (leads_nil rfl) fun isHard => ?_
  refine .bind (expression_reads budget) (leads_nil rfl) fun e => ?_
  exact endTag_reads.map fun _ _ _ _ _ he _ _ _ _ => ⟨rfl, rfl, he⟩

theorem comment_reads : ((accept [.comment]).bind fun text => endTag.bind fun _ =>
    done (.comment position (text.map (·.text)))).Reads
    (both (optional (token .comment)) (token .tagClose)) fun _ c => Command.IsTag c := by
  refine .accept ((leads_optional _).both (leads_nil rfl)) (fun tok htok => ?_) ?_
  · refine ⟨token .tagClose, endTag_reads.map fun _ _ _ _ hu => ⟨rfl, rfl, ?_⟩, ?_⟩
    · intro t ht
      cases ht
      exact hu.head.comment (List.mem_singleton.mp htok)
    · rw [List.mem_singleton.mp htok]
      exact (within_left _ _).both (.refl _)
  · refine (endTag_reads.map fun _ _ _ _ => ⟨rfl, rfl, ?_⟩).within (within_behind_optional _ _)
    intro t ht
    cases ht

theorem name_reads : ((delimiter keyword false).bind fun _ => (variablePath budget).bind fun v =>
    endTag.bind fun _ => done (.name position v)).Reads (tagRest [phrase .path])
      fun _ c => Command.IsTag c := by
  refine .bind (delimiter_reads _) (leads_nil rfl) fun _ => ?_
  refine .bind (variablePath_reads _) (leads_nil rfl) fun v => ?_
  exact endTag_reads.map fun _ _ _ _ _ hv _ _ _ _ => ⟨rfl, rfl, hv⟩

theorem contentType_reads : ((delimiter keyword false).bind fun _ =>
    (expect .string .string).bind fun tok => endTag.bind fun _ =>
      done (.contentType position (unquoted tok.text))).Reads (tagRest [token .string])
      fun _ c => Command.IsTag c := by
  refine .bind (delimiter_reads _) (leads_nil rfl) fun _ => ?_
  refine .bind (.expect _ rfl) (leads_nil rfl) fun tok => ?_
  refine endTag_reads.map fun _ _ _ _ _ ht _ _ _ _ => ⟨rfl, rfl, ?_⟩
  exact ht.2.2.string ht.2.1

theorem call_reads : ((delimiter keyword false).bind fun _ => (macroName budget).bind fun n =>
    (expect (.symbol .leftParen) (.symbol .leftParen)).bind fun _ =>
    (parenthesized (expression budget) budget).bind fun es => endTag.bind fun _ =>
      done (.call position n es)).Reads (tagRest [phrase .macroName, symbol .leftParen,
        optional (separated Form.expression), symbol .rightParen])
      fun _ c => Command.IsTag c := by
  refine .bind (delimiter_reads _) (leads_nil rfl) fun _ => ?_
  refine .bind (macroName_reads _) (leads_nil rfl) fun n => ?_
  refine .bind (.expect _ rfl) (leads_nil rfl) fun _ => ?_
  refine .within (.bind (parenthesized_reads (expression_reads budget) _) (leads_nil rfl)
    fun es => ?_) (within_assoc _ _ _)
  refine endTag_reads.map fun _ _ _ _ _ hes _ _ _ _ _ hn _ _ _ _ => ?_
  exact ⟨rfl, rfl, hn, Expr.canonicalAll_iff.mpr hes⟩

section

variable (hb : body.Reads (phrase .commands) fun _ cs => Command.Tidy cs)
  (hk : keyword.kind = .keyword k)
include hb hk

theorem inline_reads : (endTag.bind fun _ => (enclosed body openTag keyword).bind fun c =>
    done (.inline position c)).Reads
    (both (token .tagClose) (both (phrase .commands) (phrase (.close k))))
      fun _ c => Command.IsTag c := by
  refine .bind endTag_reads (leads_nil rfl) fun _ => ?_
  exact (enclosed_reads hb openTag hk).map fun _ _ _ hc _ _ _ => ⟨rfl, rfl, hc⟩

theorem loop_reads : ((delimiter keyword false).bind fun _ => (target budget).bind fun v =>
    (bounds budget).bind fun b => endTag.bind fun _ =>
    (enclosed body openTag keyword).bind fun c => done (.loop position v b c)).Reads
    (blockRest k loopArguments) fun _ c => Command.IsTag c := by
  rw [loopHead_bind]
  refine .within (.bind (loopHead_reads budget keyword) (leads_nil rfl) fun p => ?_)
    (sequence_within (token .softDelimiter :: (loopArguments ++ [token .tagClose])) [_, _]
      (by simp) (by simp))
  exact (enclosed_reads hb openTag hk).map fun _ _ _ hc _ hp _ => ⟨rfl, rfl, hp.1, hp.2, hc⟩

theorem define_reads : ((delimiter keyword false).bind fun _ => (macroName budget).bind fun n =>
    (expect (.symbol .leftParen) (.symbol .leftParen)).bind fun _ =>
    (parenthesized (variablePath budget) budget).bind fun vs => endTag.bind fun _ =>
    (enclosed body openTag keyword).bind fun c => done (.define position n vs c)).Reads
    (blockRest k defineArguments) fun _ c => Command.IsTag c := by
  rw [defineHead_bind]
  refine .within (.bind (defineHead_reads budget keyword) (leads_nil rfl) fun p => ?_)
    (sequence_within (token .softDelimiter :: (defineArguments ++ [token .tagClose])) [_, _]
      (by simp) (by simp))
  exact (enclosed_reads hb openTag hk).map fun _ _ _ hc _ hp _ => ⟨rfl, rfl, hp.1, hp.2, hc⟩

theorem if_reads : ((branches place body (expression budget) budget openTag keyword).bind fun bs =>
    (elseBranch body).bind fun c => (closeBlock openTag keyword).bind fun _ =>
      done (Branch.chain bs c)).Reads
    (sequence [token .softDelimiter, Form.expression, token .tagClose, phrase .commands,
      many elseIfBranch, optional (sequence
        [token .tagOpen, Form.keyword .elseTag, token .tagClose, phrase .commands]),
      phrase (.close k)]) fun _ c => Command.IsTag c := by
  refine .within (.bind (branches_reads hb (expression_reads budget) _ _ _) (leads_nil rfl)
    fun bs => ?_) (sequence_within _ [_, _] (by simp) (by simp))
  refine .bind (elseBranch_reads hb) (leads_nil rfl) fun c => ?_
  refine (closeBlock_reads openTag hk).map fun _ _ _ _ _ hc _ _ hbs _ => ?_
  exact isTag_chain hbs.1 hbs.2 hc

end

end

theorem within_keyworded (i : Nat) (hi : i < commandForms.length) :
    commandForms[i].Within keyworded := within_anyOf _ (List.getElem_mem hi)

theorem block_within (k : Keyword) (head f : Form) :
    (both head (both f (both (phrase .commands) (phrase (.close k))))).Within
      (block k (both head f)) := assoc_within _ _ _

theorem block_tag_within (k : Keyword) (arguments : List Form) :
    (both (Form.keyword k) (blockRest k arguments)).Within (block k (tag k arguments)) :=
  within_sequence_append
    (Form.keyword k :: token .softDelimiter :: (arguments ++ [token .tagClose]))
    [phrase .commands, phrase (.close k)]

/-- The rest of a tag behind its keyword reads what the form of the tag has there. -/
theorem tag?_reads {place : Nat → Position} {body : Script (List Command)} {budget : Nat}
    (hb : body.Reads (phrase .commands) fun _ cs => Command.Tidy cs)
    {openTag keyword : Token} {rest : Script Command}
    (h : tag? place body budget openTag keyword = some rest) :
    ∃ f, rest.Reads f (fun _ c => Command.IsTag c) ∧
      (both (token keyword.kind) f).Within keyworded := by
  unfold tag? at h
  simp only at h
  split at h
  all_goals (rename_i hk; try rw [hk]; try cases h)
  · exact ⟨_, comment_reads _, within_anyOf_first _ _⟩
  · exact ⟨_, output_reads _ _ _, within_keyworded 0 (by decide)⟩
  · exact ⟨_, output_reads _ _ _, within_keyworded 1 (by decide)⟩
  · exact ⟨_, output_reads _ _ _, within_keyworded 2 (by decide)⟩
  · exact ⟨_, output_reads _ _ _, within_keyworded 3 (by decide)⟩
  · exact ⟨_, (bindingTag_reads _ _).map fun _ _ _ hp => ⟨rfl, rfl, hp.1, hp.2⟩,
      within_keyworded 4 (by decide)⟩
  · exact ⟨_, name_reads _ _, within_keyworded 5 (by decide)⟩
  · exact ⟨_, wrap_reads _ _ hb hk _, (block_within _ _ _).trans (within_keyworded 6 (by decide))⟩
  · exact ⟨_, wrap_reads _ _ hb hk _, (block_within _ _ _).trans (within_keyworded 7 (by decide))⟩
  · exact ⟨_, wrap_reads _ _ hb hk _, (block_within _ _ _).trans (within_keyworded 8 (by decide))⟩
  · exact ⟨_, bind_reads _ _ hb hk _, (block_within _ _ _).trans (within_keyworded 9 (by decide))⟩
  · exact ⟨_, bind_reads _ _ hb hk _, (block_within _ _ _).trans (within_keyworded 10 (by decide))⟩
  · exact ⟨_, loop_reads _ _ hb hk,
      (block_tag_within .loop _).trans (within_keyworded 11 (by decide))⟩
  · exact ⟨_, define_reads _ _ hb hk,
      (block_tag_within .defTag _).trans (within_keyworded 12 (by decide))⟩
  · exact ⟨_, call_reads _ _, within_keyworded 13 (by decide)⟩
  · exact ⟨_, if_reads _ hb hk,
      (within_sequence_append _ [_, _, _, _]).trans (within_keyworded 17 (by decide))⟩
  · exact ⟨_, inclusion_reads _ _ _ _, (Within.both (within_left _ _) (.refl _)).trans
      (within_keyworded 14 (by decide))⟩
  · exact ⟨_, inclusion_reads _ _ _ _, (Within.both (within_right _ _) (.refl _)).trans
      (within_keyworded 14 (by decide))⟩
  · exact ⟨_, contentType_reads _, within_keyworded 15 (by decide)⟩
  · exact ⟨_, inline_reads _ hb hk, (block_within _ _ _).trans (within_keyworded 16 (by decide))⟩
  · cases h

/-! ### Bodies -/

/-- The marks of a body take no token. -/
theorem feed_marked (body : Script (List Command)) (ts : List Token) :
    (marked body).feed ts = body.feed ts := by
  change ((body.bind fun found => note .bodyEnd (.done found))).feed ts = body.feed ts
  rw [feed_bind]
  cases body.feed ts <;> rfl

/-- A command reads its form if its bodies do. -/
theorem commandOver_reads (place : Nat → Position) {body : Script (List Command)} (budget : Nat)
    (hb : body.Reads (phrase .commands) fun _ cs => Command.Tidy cs) :
    (commandOver place body budget).Reads (phrase .command) fun _ c => Command.IsTag c := by
  have hcommand : (commandOver place body budget).Reads Phrase.command.form
      fun _ c => Command.IsTag c := by
    unfold commandOver
    refine .bind (g := keyworded) (.expect _ rfl) (leads_nil rfl) fun openTag => ?_
    refine .any_token (leads_nil rfl) fun keyword ts => ?_
    cases ht : tag? place body budget openTag keyword with
    | none => exact .unexpected_first (leads_nil rfl)
    | some rest =>
      obtain ⟨f, hf, hw⟩ := tag?_reads hb ht
      have hrest := (hf ts).weaken (Q := fun us c => Proper (keyword :: us) → c.IsTag) (.refl f)
        fun _ _ _ hc _ => hc
      exact hrest.cons.weaken hw fun _ _ _ hc _ _ _ => hc
  exact hcommand.within (within_phrase _)

/-- Siblings go by the next two tokens: literal text is taken, a tag is read
unless it ends the body. -/
theorem feed_siblings_cons (place : Nat → Position) (budget : Nat) (t : Token) (ts : List Token) :
    (siblings place (budget + 1)).feed (t :: ts) =
      if t.kind = .data then
        ((siblings place budget).bind fun cs => .done (.data t.text :: cs)).feed ts
      else if t.kind = .tagOpen then
        match ts with
        | [] => .waiting
        | t' :: _ =>
          if endsBody t'.kind then .gave [] (t :: ts)
          else ((commandOver place (marked (siblings place budget)) budget).bind fun c =>
            (siblings place budget).bind fun cs => .done (c :: cs)).feed (t :: ts)
      else .gave [] (t :: ts) := by
  rw [siblings_succ]
  refine (feed_accept _ _ _ _).trans ?_
  by_cases hd : t.kind = .data
  · rw [if_pos hd, if_pos (by simp [hd])]
    rfl
  rw [if_neg hd, if_neg (by simp [hd])]
  change ((if t.kind = .tagOpen then (peek 1).bind fun t' => if endsBody t'.kind then .done []
      else (commandOver place (marked (siblings place budget)) budget).bind fun c =>
        (siblings place budget).bind fun cs => .done (c :: cs)
    else .done [] : Script (List Command)).feed (t :: ts)) = _
  by_cases ht : t.kind = .tagOpen
  · rw [if_pos ht, if_pos ht]
    cases ts with
    | nil => rfl
    | cons t' ts =>
      change ((if endsBody t'.kind then .done [] else _ : Script (List Command)).feed _) = _
      by_cases he : endsBody t'.kind = true
      · rw [if_pos he]
        simp only [he, if_true]
        rfl
      · rw [if_neg he]
        simp only [he]
        rfl
  · rw [if_neg ht, if_neg ht]
    rfl

/-- What siblings are that were read from these tokens: tidy, and literal text
comes first only where it does among the tokens. -/
structure Siblings (us : List Token) (cs : List Command) : Prop where
  tidy : Command.Tidy cs
  first : ∀ c ∈ cs.head?, c.isData = true → ∃ tok ∈ us.head?, tok.kind = .data

theorem within_commands_more : (both (either (token .data) (phrase .command))
    (phrase .commands)).Within (phrase .commands) := by
  intro ks h
  cases h with
  | both hf hs =>
    cases hs with
    | phrase hs => exact .phrase (.more hf hs)

/-- A tag that opens can become a comment. -/
theorem leads_tagOpen {tok : Token} (h : tok.kind = .tagOpen) : (phrase .commands).Leads [tok] := by
  have hcommand : (phrase .command).Leads [tok] :=
    Leads.within (.cons h (leads_nil (f := keyworded) rfl)) (within_phrase .command)
  exact (hcommand.within (within_right _ _)).many.within (within_phrase .commands)

/-- **Siblings read the form of a body**, and no literal text stands beside
literal text. -/
theorem siblings_reads (place : Nat → Position) : ∀ budget : Nat,
    (siblings place budget).Reads (phrase .commands) Siblings
  | 0 => .exhausted
  | budget + 1 => by
    have ih := siblings_reads place budget
    have hbody : (marked (siblings place budget)).Reads (phrase .commands)
        fun _ cs => Command.Tidy cs := by
      intro ts
      rw [feed_marked]
      exact (ih ts).weaken (.refl _) fun _ _ _ h => h.tidy
    have hnone : (Script.done ([] : List Command)).Reads (phrase .commands) Siblings :=
      (Reads.done ⟨.nil, by simp⟩).within ((within_many_none _).trans (within_phrase .commands))
    intro ts
    obtain _ | ⟨t, ts⟩ := ts
    · rw [siblings_succ]
      exact .waiting (leads_nil rfl)
    rw [feed_siblings_cons]
    split
    · -- literal text, and no other right behind it
      rename_i hk
      have hrest := ih.map (e := fun cs => Command.data t.text :: cs)
        (R := fun us cs => Proper (t :: us) → Siblings (t :: us) cs) fun us cs _ hcs hu => by
          refine ⟨.cons rfl (hu.head.data hk) hcs.tidy fun _ d hd => ?_, fun _ _ _ => ⟨t, rfl, hk⟩⟩
          cases hdata : d.isData with
          | false => rfl
          | true =>
            obtain ⟨next, hnext, hnk⟩ := hcs.first d hd hdata
            obtain ⟨us, rfl⟩ := List.head?_eq_some_iff.mp hnext
            exact absurd hnk (hu.apart [] t next us rfl hk)
      refine (hrest ts).cons.weaken ?_ fun _ _ _ h => h
      rw [hk]
      exact (Within.both (within_left _ _) (.refl _)).trans within_commands_more
    split
    · rename_i ht
      cases ts with
      | nil => exact .waiting (leads_tagOpen ht)
      | cons t' ts =>
        simp only
        split
        · exact hnone _
        · refine Reads.within (.bind (commandOver_reads place budget hbody) (leads_nil rfl)
            fun c => ?_) ((Within.both (within_right _ _) (.refl _)).trans within_commands_more) _
          refine ih.map fun us cs _ hcs vs hc hu => ⟨?_, fun d hd h => ?_⟩
          · exact .cons hc.1 hc.2.2 hcs.tidy fun h => by rw [hc.2.1] at h; cases h
          · cases hd
            rw [hc.2.1] at h
            cases h
    · exact hnone _

/-- Siblings leave no literal text that could be taken. -/
theorem siblings_rest (place : Nat → Position) : ∀ (budget : Nat) {ts rest : List Token}
    {cs : List Command} {tok : Token},
    (siblings place budget).feed ts = .gave cs (tok :: rest) → tok.kind ≠ .data
  | 0, _, _, _, _, h => by cases h
  | budget + 1, [], _, _, _, h => by
    rw [siblings_succ] at h
    cases h
  | budget + 1, t :: ts, rest, cs, tok, h => by
    rw [feed_siblings_cons] at h
    split at h
    · obtain ⟨cs', rest', hs, h⟩ := gave_of_bind h
      cases h
      exact siblings_rest place budget hs
    rename_i hd
    split at h
    · cases ts with
      | nil => cases h
      | cons t' ts =>
        change (if endsBody t'.kind = true then _ else _) = _ at h
        split at h
        · cases h
          exact hd
        · obtain ⟨c, rest', -, h⟩ := gave_of_bind h
          obtain ⟨cs', rest'', hs, h⟩ := gave_of_bind h
          cases h
          exact siblings_rest place budget hs
    · cases h
      exact hd

/-- **A body reads its form** and is tidy. -/
theorem commands_reads (place : Nat → Position) (budget : Nat) :
    (commands place budget).Reads (phrase .commands) fun _ cs => Command.Tidy cs := by
  intro ts
  rw [commands, feed_marked]
  exact (siblings_reads place budget ts).weaken (.refl _) fun _ _ _ h => h.tidy

end Script
end ClearSilver
