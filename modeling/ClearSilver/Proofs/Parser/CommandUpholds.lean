/-
# Bodies begin and end at a border of content

A body begins where the queue is empty and the scanner reads content, and it
ends at the end of the input or where a tag opens that closes or continues a
block; the keyword of such a tag is the only second token that is ever looked
at. Tags are modest in between and end with `?>`, after which the scanner reads
content again. So a run stops inside of a tag, at a token that is no literal
text, and where it wants a command or the end it has found a tag that closes or
continues a block.

Key definitions: `modeBehind`, `InContent`, `AtBodyEnd`,
`Expectation.OfTemplate`, `Fault.StopsTemplate`, `Rule.template`.
Key theorems: `Script.tag?_toContent`, `Script.siblings_isBody`,
`Script.template_upholds`.
-/
import ClearSilver.Proofs.Parser.Modest
import ClearSilver.Proofs.Scan.Stream

namespace ClearSilver

/-! ### Borders of content -/

/-- The mode that some tokens lead to from the beginning of a template. -/
def modeBehind (ts : List Token) : Mode := ts.foldl (fun mode tok => mode.step tok.kind) .content

theorem modeBehind_concat (ts : List Token) (tok : Token) :
    modeBehind (ts ++ [tok]) = (modeBehind ts).step tok.kind := by
  rw [modeBehind, List.foldl_append]
  rfl

/-- The last token is a lexeme of the mode that the others lead to. -/
theorem Lexical.concat {tok : Token} : ∀ {ts : List Token} {mode : Mode},
    Lexical mode (ts ++ [tok]) → tok.kind = .eof ∨
      (ts.foldl (fun mode tok => mode.step tok.kind) mode).IsLexeme tok.kind tok.text
  | [], _, h => h.1
  | t :: ts, mode, h => @Lexical.concat tok ts (mode.step t.kind) h.2.2

/-- In content stands literal text, a tag that opens or the end. -/
theorem Lexical.in_content {ts : List Token} {tok : Token} (hm : modeBehind ts = .content)
    (h : Lexical .content (ts ++ [tok])) :
    tok.kind = .eof ∨ tok.kind = .data ∨ tok.kind = .tagOpen := by
  rcases h.concat with hk | hlexeme
  · exact .inl hk
  · rw [← modeBehind, hm] at hlexeme
    cases hk : tok.kind <;> simp [hk, Mode.IsLexeme] at hlexeme ⊢

/-- Is nothing looked at, and does the scanner read content? -/
def InContent (taken queue : List Token) : Prop := queue = [] ∧ modeBehind taken = .content

/-- Is the next token the end, or does a tag open here that closes or
continues a block? -/
def AtBodyEnd (queue : List Token) : Prop :=
  (∃ tok, queue = [tok] ∧ tok.kind = .eof) ∨
    ∃ openTag tok, queue = [openTag, tok] ∧ openTag.kind = .tagOpen ∧ endsBody tok.kind = true

/-- Can this be expected in a template where the token is found? The beginning
of a command or the end is where a tag closes or continues a block, and the
beginning of a tag is nowhere. -/
def Expectation.OfTemplate (found : Token) : Expectation → Prop
  | commandOrEnd => endsBody found.kind = true
  | tagOpen | phrase _ => False
  | _ => True

theorem Expectation.OfTag.ofTemplate {expected : Expectation} (h : expected.OfTag) (found : Token) :
    expected.OfTemplate found := by
  cases expected <;> trivial

/-- Can a template stop like this behind these tokens? It stops inside of a tag
at the last of them, or at the end if a block is not closed. -/
def Fault.StopsTemplate : Fault → List Token → Prop
  | unexpected expected found, ts => ∃ before, ts = before ++ [found] ∧
      modeBehind before ≠ .content ∧ expected.OfTemplate found
  | unclosed _ _, ts => ∃ tok, ts.getLast? = some tok ∧ tok.kind = .eof
  | exhausted, _ => True
  | lexical _, _ => False

/-- What is asked of the run of a template. -/
def Rule.template : Rule where
  given := Lexical .content
  inside taken := modeBehind taken ≠ .content
  queue ts := ts.length ≤ 1 ∨ ∃ openTag tok, ts = [openTag, tok] ∧ openTag.kind = .tagOpen
  event
    | .bodyStart, taken, queue => InContent taken queue
    | .bodyEnd, _, queue => AtBodyEnd queue
    | .tag _ _, _, _ | .finished _, _, _ => True
  fault := Fault.StopsTemplate

/-- No token but its end leads out of a tag. -/
theorem Mode.step_ne_content {mode : Mode} {k : Token.Kind} (hm : mode ≠ .content)
    (hk : k ≠ .tagClose) : mode.step k ≠ .content := by
  intro h
  cases mode with
  | content => exact hm rfl
  | command | arguments | comment => cases k <;> first | exact hk rfl | cases h

theorem Rule.template_lenient : Rule.template.Lenient where
  queue _ h := .inl h
  inside taken tok hin hk := by
    show modeBehind (taken ++ [tok]) ≠ .content
    rw [modeBehind_concat]
    exact Mode.step_ne_content hin hk
  unexpected _ found taken he hin := ⟨taken, rfl, hin, he.ofTemplate found⟩
  exhausted _ := trivial

namespace Script

variable {α β : Type} {taken queue : List Token}

/-! ### Scripts that end in content -/

/-- Does the script lead from inside a tag to content? -/
def ToContent (s : Script α) : Prop :=
  ∀ taken queue : List Token, Rule.template.Within taken queue →
    s.Upholds .template (fun _ taken queue => InContent taken queue) taken queue

/-- Does the script lead from content to content? -/
def FromContent (s : Script α) : Prop :=
  ∀ taken : List Token, modeBehind taken = .content →
    s.Upholds .template (fun _ taken queue => InContent taken queue) taken []

/-- Does the script lead from content to the end of a body? -/
def IsBody (s : Script α) : Prop :=
  ∀ taken : List Token, modeBehind taken = .content →
    s.Upholds .template (fun _ _ queue => AtBodyEnd queue) taken []

/-- Does the script lead from the end of a body to content? -/
def FromBodyEnd (s : Script α) : Prop :=
  ∀ taken queue : List Token, AtBodyEnd queue →
    s.Upholds .template (fun _ taken queue => InContent taken queue) taken queue

theorem Modest.then_toContent {s : Script α} {k : α → Script β} (hs : s.Modest)
    (hk : ∀ a, (k a).ToContent) : (s.bind k).ToContent :=
  fun taken queue hw => (hs .template Rule.template_lenient taken queue hw).andThen hk

theorem ToContent.bind {s : Script α} {k : α → Script β} (hs : s.ToContent)
    (hk : ∀ a, (k a).FromContent) : (s.bind k).ToContent := by
  refine fun taken queue hw => (hs taken queue hw).andThen ?_
  rintro a taken queue ⟨rfl, hm⟩
  exact hk a taken hm

theorem FromContent.done (a : α) : (Script.done a).FromContent := fun _ hm => ⟨rfl, hm⟩

theorem ToContent.map {s : Script α} {e : α → β} (hs : s.ToContent) :
    (s.bind fun a => Script.done (e a)).ToContent := hs.bind fun a => .done (e a)

theorem FromContent.map {s : Script α} {e : α → β} (hs : s.FromContent) :
    (s.bind fun a => Script.done (e a)).FromContent :=
  fun taken hm => .bind (hs taken hm)

/-- After `?>` the scanner reads content. -/
theorem endTag_toContent : endTag.ToContent := by
  intro taken queue hw
  refine .bind (.expect Rule.template_lenient trivial hw fun tok hk => ⟨rfl, ?_⟩)
  rw [modeBehind_concat, hk]
  cases modeBehind taken <;> rfl

theorem headedTag_toContent (budget : Nat) (keyword : Token) :
    (headedTag budget keyword).ToContent :=
  (delimiter_modest keyword false).then_toContent fun _ =>
    (expression_modest budget).then_toContent fun _ => endTag_toContent.map

theorem bindingTag_toContent (budget : Nat) (keyword : Token) :
    (bindingTag budget keyword).ToContent :=
  (delimiter_modest keyword false).then_toContent fun _ =>
    (target_modest budget).then_toContent fun _ =>
      (expression_modest budget).then_toContent fun _ => endTag_toContent.map

/-! ### Blocks -/

/-- Two tokens are in the queue and the first opens a tag. -/
theorem queue_pair {openTag : Token} (hopen : openTag.kind = .tagOpen) (tok : Token) :
    Rule.template.queue [openTag, tok] := .inr ⟨openTag, tok, rfl, hopen⟩

theorem queue_single (tok : Token) : Rule.template.queue [tok] := .inl (Nat.le_refl 1)

/-- Behind the beginning of a tag the tag is read. -/
theorem inside_tagOpen {openTag : Token} (hopen : openTag.kind = .tagOpen) (taken : List Token) :
    Rule.template.inside (taken ++ [openTag]) := by
  show modeBehind (taken ++ [openTag]) ≠ .content
  rw [modeBehind_concat, hopen]
  cases modeBehind taken <;> simp [Mode.step]

theorem within_pair {openTag tok : Token} (hopen : openTag.kind = .tagOpen)
    (hk : tok.kind ≠ .tagClose) (taken : List Token) :
    Rule.template.Within (taken ++ [openTag] ++ [tok]) [] :=
  ⟨Rule.template_lenient.inside _ tok (inside_tagOpen hopen taken) hk, Nat.zero_le 1⟩

theorem ne_tagClose_of_endsBody {k : Token.Kind} (h : endsBody k = true) : k ≠ .tagClose := by
  rintro rfl
  cases h

theorem closeBlock_fromBodyEnd (openTag : Token) {keyword : Token}
    (hk : keyword.kind ≠ .tagClose) : (closeBlock openTag keyword).FromBodyEnd := by
  rintro taken queue (⟨tok, rfl, hk⟩ | ⟨openTag', tok, rfl, hopen, hend⟩)
  · refine .bind (.look_found rfl (queue_single tok) ?_)
    rw [hk]
    exact ⟨tok, List.getLast?_concat, hk⟩
  · have hclose : ((expect (.symbol .slash) (.closeOf keyword.text)).bind fun _ =>
        (expect keyword.kind (.closeOf keyword.text)).bind fun _ => endTag).ToContent :=
      Modest.then_toContent (.expect (by decide) trivial) fun _ =>
        Modest.then_toContent (.expect hk trivial) fun _ => endTag_toContent
    have hpair := queue_pair hopen tok
    refine .bind (.look_found rfl hpair ?_)
    rw [hopen]
    refine .bind (.look_found rfl hpair ?_)
    rw [if_pos hopen]
    exact ⟨queue_single tok, hclose _ [tok] ⟨inside_tagOpen hopen taken, Nat.le_refl 1⟩⟩

theorem enclosed_fromContent {body : Script (List Command)} (hb : body.IsBody) (openTag : Token)
    {keyword : Token} (hk : keyword.kind ≠ .tagClose) :
    (enclosed body openTag keyword).FromContent := by
  refine fun taken hm => (hb taken hm).andThen fun found taken queue hend => ?_
  exact .bind (closeBlock_fromBodyEnd openTag hk taken queue hend)

/-- The tag that ends a body is looked at and stays; there is one if it is the
tag that is asked for. -/
theorem tagAhead_upholds (kind : Token.Kind) (hend : AtBodyEnd queue) :
    (tagAhead kind).Upholds .template (fun isThere _ queue => AtBodyEnd queue ∧
      (isThere = true → ∃ openTag tok, queue = [openTag, tok] ∧ openTag.kind = .tagOpen ∧
        endsBody tok.kind = true)) taken queue := by
  unfold tagAhead
  refine .bind ?_
  rcases hend with ⟨tok, rfl, hk⟩ | ⟨openTag, tok, rfl, hopen, hbody⟩
  · refine .look_found rfl (queue_single tok) ?_
    show Upholds _ _ (if tok.kind = .tagOpen then _ else _) _ _
    rw [if_neg (by rw [hk]; decide)]
    exact ⟨.inl ⟨tok, rfl, hk⟩, nofun⟩
  · have hpair := queue_pair hopen tok
    refine .look_found rfl hpair ?_
    show Upholds _ _ (if openTag.kind = .tagOpen then _ else _) _ _
    rw [if_pos hopen]
    exact .bind (.look_found rfl hpair
      ⟨.inr ⟨openTag, tok, rfl, hopen, hbody⟩, fun _ => ⟨openTag, tok, rfl, hopen, hbody⟩⟩)

/-- The two tokens of a tag are taken. -/
theorem advance_pair {openTag tok : Token} {k : Token → Token → Script β}
    {post : β → List Token → List Token → Prop}
    (h : (k openTag tok).Upholds .template post (taken ++ [openTag] ++ [tok]) []) :
    (advance.bind fun openTag => advance.bind fun tok => k openTag tok).Upholds .template post
      taken [openTag, tok] :=
  ⟨queue_single tok, .inl (Nat.zero_le 1), h⟩

section

variable {body : Script (List Command)} (hb : body.IsBody)
include hb

/-- The branches of an `if` end where the body of the last one does. -/
theorem branches_upholds (place : Nat → Position) {condition : Script Expr}
    (hc : condition.Modest) : ∀ (budget : Nat) (openTag keyword : Token) (taken queue : List Token),
      Rule.template.Within taken queue →
        (branches place body condition budget openTag keyword).Upholds .template
          (fun _ _ queue => AtBodyEnd queue) taken queue
  | 0, _, _, _, _, _ => trivial
  | budget + 1, openTag, keyword, taken, queue, hw => by
    have hlenient := Rule.template_lenient
    unfold branches
    have hd := delimiter_modest keyword false
    refine (hd _ hlenient taken queue hw).andThen fun _ taken queue hw => ?_
    refine (hc _ hlenient taken queue hw).andThen fun test taken queue hw => ?_
    refine (endTag_toContent taken queue hw).andThen ?_
    rintro _ taken queue ⟨rfl, hm⟩
    refine (hb taken hm).andThen fun block taken queue hend => ?_
    refine (tagAhead_upholds _ hend).andThen ?_
    rintro isThere taken queue ⟨hend, hpair⟩
    cases isThere with
    | false => exact hend
    | true =>
      obtain ⟨openTag', tok, rfl, hopen, hends⟩ := hpair rfl
      have hw := within_pair hopen (ne_tagClose_of_endsBody hends) taken
      exact advance_pair (.bind (branches_upholds place hc budget openTag' tok _ [] hw))

/-- After the branches of an `if` comes an `else` tag with a body or nothing. -/
theorem elseBranch_upholds (hend : AtBodyEnd queue) :
    (elseBranch body).Upholds .template (fun _ _ queue => AtBodyEnd queue) taken queue := by
  refine (tagAhead_upholds _ hend).andThen ?_
  rintro isThere taken queue ⟨hend, hpair⟩
  cases isThere with
  | false => exact hend
  | true =>
    obtain ⟨openTag, tok, rfl, hopen, hends⟩ := hpair rfl
    have hw := within_pair hopen (ne_tagClose_of_endsBody hends) taken
    refine advance_pair (k := fun _ _ => _) ?_
    refine (endTag_toContent _ [] hw).andThen ?_
    rintro _ taken queue ⟨rfl, hm⟩
    exact .bind (hb taken hm)

/-! ### Commands -/

omit hb in
/-- A keyword that begins a command does not end its tag. -/
theorem ne_tagClose_of_tag? {place : Nat → Position} {budget : Nat} {openTag keyword : Token}
    {s : Script Command} (h : tag? place body budget openTag keyword = some s) :
    keyword.kind ≠ .tagClose := by
  intro hk
  simp only [tag?, hk] at h
  cases h

/-- The rest of a command leads to content. -/
theorem tag?_toContent {place : Nat → Position} {budget : Nat} {openTag keyword : Token}
    {s : Script Command} (h : tag? place body budget openTag keyword = some s) : s.ToContent := by
  have hd := fun allowHard => delimiter_modest keyword allowHard
  have he := expression_modest budget
  have hend := endTag_toContent
  have hhead := headedTag_toContent budget keyword
  have hbinding := bindingTag_toContent budget keyword
  have hkeyword := ne_tagClose_of_tag? h
  have hblock := enclosed_fromContent hb openTag hkeyword
  have hbranches := branches_upholds hb place he budget openTag keyword
  unfold tag? at h
  split at h <;> cases h
  · exact Modest.then_toContent (.accepted (by decide)) fun text => hend.map
  · exact hhead.map
  · exact hhead.map
  · exact hhead.map
  · exact hhead.map
  · exact hbinding.bind fun p => .done _
  · exact (hd false).then_toContent fun _ => (variablePath_modest budget).then_toContent fun _ =>
      hend.map
  · exact hhead.bind fun _ => hblock.map
  · exact hhead.bind fun _ => hblock.map
  · exact hhead.bind fun _ => hblock.map
  · exact hbinding.bind fun _ => hblock.map
  · exact hbinding.bind fun _ => hblock.map
  · exact (hd false).then_toContent fun _ => (target_modest budget).then_toContent fun _ =>
      (bounds_modest budget).then_toContent fun _ => hend.bind fun _ => hblock.map
  · exact (hd false).then_toContent fun _ => (macroName_modest budget).then_toContent fun _ =>
      Modest.then_toContent (.expect (by decide) trivial) fun _ =>
        (parenthesized_modest (variablePath_modest budget) budget).then_toContent fun _ =>
          hend.bind fun _ => hblock.map
  · exact (hd false).then_toContent fun _ => (macroName_modest budget).then_toContent fun _ =>
      Modest.then_toContent (.expect (by decide) trivial) fun _ =>
        (parenthesized_modest he budget).then_toContent fun _ => hend.map
  · intro taken queue hw
    refine (hbranches taken queue hw).andThen fun found taken queue hbody => ?_
    refine (elseBranch_upholds hb hbody).andThen fun otherwise taken queue hbody => ?_
    exact .bind (closeBlock_fromBodyEnd openTag hkeyword taken queue hbody)
  · exact (hd true).then_toContent fun _ => he.then_toContent fun _ => hend.map
  · exact (hd true).then_toContent fun _ => he.then_toContent fun _ => hend.map
  · exact (hd false).then_toContent fun _ =>
      Modest.then_toContent (.expect (by decide) trivial) fun _ => hend.map
  · exact hend.bind fun _ => hblock.map

/-- A command leads from the tag that opens it to content. -/
theorem commandOver_upholds (place : Nat → Position) {budget : Nat} {openTag keyword : Token}
    (hopen : openTag.kind = .tagOpen) :
    (commandOver place body budget).Upholds .template
      (fun _ taken queue => InContent taken queue) taken [openTag, keyword] := by
  refine .bind (.look_found rfl (queue_pair hopen keyword) ?_)
  rw [if_pos hopen]
  refine ⟨queue_single keyword, .inl (Nat.zero_le 1), ?_⟩
  simp only [Bind.bind, Script.bind]
  cases htag : tag? place body budget openTag keyword with
  | none => exact ⟨taken ++ [openTag], by simp, inside_tagOpen hopen taken, trivial⟩
  | some rest =>
    exact ⟨trivial, tag?_toContent hb htag _ [] (within_pair hopen (ne_tagClose_of_tag? htag) _)⟩

end

/-! ### Bodies -/

theorem marked_isBody {siblings : Script (List Command)} (hs : siblings.IsBody) :
    (marked siblings).IsBody := by
  intro taken hm
  have hread : (siblings.bind fun found => (record .bodyEnd).bind fun _ => done found).Upholds
      .template (fun _ _ queue => AtBodyEnd queue) taken [] :=
    (hs taken hm).andThen fun found taken queue hend => ⟨hend, hend⟩
  exact ⟨⟨rfl, hm⟩, hread⟩

/-- **A body leads from content to its end.** -/
theorem siblings_isBody (place : Nat → Position) : ∀ budget : Nat, (siblings place budget).IsBody
  | 0 => fun _ _ => trivial
  | budget + 1 => by
    have ih := siblings_isBody place budget
    have hlenient := Rule.template_lenient
    intro taken hm
    rw [siblings_succ]
    refine .bind (.look_next hlenient (Nat.zero_le 1) fun tok hgiven => ?_)
    rcases (hgiven rfl).in_content hm with hk | hk | hk <;> rw [hk]
    · -- the input ends
      refine .bind (.look_found rfl (queue_single tok) ?_)
      show Upholds _ _ (if tok.kind = .tagOpen then _ else _) _ _
      rw [if_neg (by rw [hk]; decide)]
      exact .inl ⟨tok, rfl, hk⟩
    · -- literal text is taken
      have hm' : modeBehind (taken ++ [tok]) = .content := by
        rw [modeBehind_concat, hm, hk]
        rfl
      exact .take_front hlenient (.bind (ih _ hm'))
    · -- a tag opens, and its keyword is looked at
      refine .bind (.look_found rfl (queue_single tok) ?_)
      show Upholds _ _ (if tok.kind = .tagOpen then _ else _) _ _
      rw [if_pos hk]
      refine .bind (.look_behind rfl (queue_single tok) fun keyword _ => ?_)
      refine ⟨queue_pair hk keyword, ?_⟩
      show Upholds _ _ (if endsBody keyword.kind then _ else _) _ _
      by_cases hends : endsBody keyword.kind = true
      · rw [if_pos hends]
        exact .inr ⟨tok, keyword, rfl, hk, hends⟩
      · rw [if_neg hends]
        refine (commandOver_upholds (marked_isBody ih) place hk).andThen ?_
        rintro command taken queue ⟨rfl, hm⟩
        exact .bind (ih taken hm)

/-- **A template keeps the rule of templates.** -/
theorem template_upholds (place : Nat → Position) (budget : Nat) :
    (template place budget).Upholds .template (fun _ _ _ => True) [] [] := by
  have hbody := marked_isBody (siblings_isBody place budget) [] rfl
  refine hbody.andThen ?_
  rintro found taken queue (⟨tok, rfl, hk⟩ | ⟨openTag, tok, rfl, hopen, hends⟩)
  · refine .bind (.look_found rfl (queue_single tok) ?_)
    rw [hk]
    exact ⟨trivial, trivial⟩
  · have hpair := queue_pair hopen tok
    refine .bind (.look_found rfl hpair ?_)
    rw [hopen]
    refine .bind (.look_found rfl hpair ?_)
    exact ⟨taken ++ [openTag], by simp, inside_tagOpen hopen taken, hends⟩

end Script
end ClearSilver
