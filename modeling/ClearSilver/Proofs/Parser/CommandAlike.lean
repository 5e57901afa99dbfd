/-
# The scripts of commands go the same way

Bodies of commands that are fed with tokens of the same kinds, of which a tree
keeps the same, give the same trees but for the positions of their tags. What
the positions look like is told by a function for each side, such as one that
moves them or one that forgets them: where the places of related tags look the
same, so do the trees (`Likewise`). The second script may have the greater
budget.

Key definitions: `Likewise`, `Command.Alike`.
Key theorems: `Script.tag?_alike`, `Script.siblings_alike`.
-/
import ClearSilver.Proofs.Parser.CommandPasses
import ClearSilver.Proofs.Parser.ExpressionAlike
import ClearSilver.Tree.Relocate

namespace ClearSilver

/-- Tokens of which a tree keeps the same, whose tags are at places that look
the same. -/
structure Likewise (R : Token → Token → Prop) (f g : Position → Position)
    (place place' : Nat → Position) : Prop extends SameKept R where
  places : ∀ t t', R t t' → t.kind = .tagOpen → f (place t.offset) = g (place' t'.offset)

/-- The same tokens at the same places. -/
theorem likewise_refl (place : Nat → Position) : Likewise Eq id id place place where
  kinds := fun _ _ h => congrArg Token.kind h
  texts := fun _ _ h => congrArg Token.keptText? h
  places := fun _ _ h _ => congrArg (fun t : Token => place t.offset) h

/-- Are the trees the same once their positions are changed? -/
def Command.Alike (f g : Position → Position) (c c' : Command) : Prop :=
  c.relocate f = c'.relocate g

/-- The same of commands beside each other. -/
def Command.AlikeAll (f g : Position → Position) (cs cs' : List Command) : Prop :=
  cs.map (relocate f) = cs'.map (relocate g)

namespace Command

variable {f g : Position → Position} {c c' : Command} {cs cs' : List Command}

theorem AlikeAll.cons (hc : c.Alike f g c') (hcs : AlikeAll f g cs cs') :
    AlikeAll f g (c :: cs) (c' :: cs') :=
  congrArg₂ List.cons hc hcs

/-- A body looks the same if its commands do. -/
theorem Alike.ofList (h : AlikeAll f g cs cs') : (Command.ofList cs).Alike f g (.ofList cs') := by
  unfold AlikeAll at h
  match cs, cs' with
  | [], [] => rfl
  | [_], [_] => exact List.head_eq_of_cons_eq h
  | [], _ :: _ | _ :: _, [] | [_], _ :: _ :: _ | _ :: _ :: _, [_] => simp at h
  | _ :: _ :: _, _ :: _ :: _ =>
    simp only [Alike, Command.ofList, relocate, relocateAll_eq_map, h]

end Command

/-- Are the branches the same once their positions are changed? -/
structure Branch.Alike (f g : Position → Position) (b b' : Branch) : Prop where
  position : f b.position = g b'.position
  condition : b.condition = b'.condition
  block : b.block.Alike f g b'.block

/-- Branches look the same as one command if each of them does. -/
theorem Branch.alike_chain {f g : Position → Position} {bs bs' : List Branch} {c c' : Command}
    (hbs : List.Forall₂ (Branch.Alike f g) bs bs') (hc : c.Alike f g c') :
    (Branch.chain bs c).Alike f g (Branch.chain bs' c') := by
  induction hbs with
  | nil => exact hc
  | @cons b b' bs bs' hb _ ih =>
    have hblock : b.block.relocate f = b'.block.relocate g := hb.block
    have hrest : (chain bs c).relocate f = (chain bs' c').relocate g := ih
    change (Command.ifElse b.position b.condition b.block (chain bs c)).relocate f =
      (Command.ifElse b'.position b'.condition b'.block (chain bs' c')).relocate g
    simp only [Command.relocate, hb.position, hb.condition, hblock, hrest]

namespace Script

variable {R : Token → Token → Prop} {f g : Position → Position} {place place' : Nat → Position}
  (hR : Likewise R f g place place')
include hR

/-! ### Parts of a tag -/

theorem delimiter_alike {keyword keyword' : Token} (hk : R keyword keyword') (allowHard : Bool) :
    Alike R Eq (delimiter keyword allowHard) (delimiter keyword' allowHard) := by
  have hreject : Alike R Eq
      ((peek 0).bind fun t => (reject (.delimiterAfter keyword.text) t : Script Bool))
      ((peek 0).bind fun t => (reject (.delimiterAfter keyword'.text) t : Script Bool)) :=
    .peek (fun t t' ht => .reject (.delimiterAfter hk) ht) 0
  unfold delimiter
  refine .accept hR.kinds (fun _ _ _ _ => .done rfl) ?_
  cases allowHard with
  | false => exact hreject
  | true => exact .accept hR.kinds (fun _ _ _ _ => .done rfl) hreject

theorem endTag_alike : Alike R Eq endTag endTag :=
  (Alike.expect hR.kinds _ (.same _)).map fun _ _ _ => rfl

/-- A tag that begins with some kind of token is taken if it stands there. -/
theorem tagAhead_alike {γ δ : Type} {S : γ → δ → Prop} {kind : Token.Kind} {next : Bool → Script γ}
    {next' : Bool → Script δ} {k : Token → Token → Script γ} {k' : Token → Token → Script δ}
    (hnext : next true = advance.bind fun t => advance.bind (k t))
    (hnext' : next' true = advance.bind fun t => advance.bind (k' t))
    (htag : ∀ t t' u u', R t t' → t.kind = .tagOpen → R u u' → Alike R S (k t u) (k' t' u'))
    (hnone : Alike R S (next false) (next' false)) :
    Alike R S ((tagAhead kind).bind next) ((tagAhead kind).bind next') := by
  intro ts ts' hts
  rw [feed_bind, feed_bind]
  cases hts with
  | nil => exact .waiting
  | @cons t t' rest rest' ht hrest =>
    have hkind := hR.kinds t t' ht
    by_cases hopen : t.kind = .tagOpen
    · rw [feed_tagAhead_of_eq hopen, feed_tagAhead_of_eq (hkind ▸ hopen)]
      cases hrest with
      | nil => exact .waiting
      | @cons u u' rest rest' hu hrest =>
        simp only [feed, List.getElem?_cons_succ, List.getElem?_cons_zero, Fed.andThen,
          ← hR.kinds u u' hu]
        by_cases hu' : u.kind = kind
        · rw [decide_eq_true hu', hnext, hnext']
          exact htag t t' u u' ht hopen hu rest rest' hrest
        · rw [decide_eq_false hu']
          exact hnone _ _ (.cons ht (.cons hu hrest))
    · rw [feed_tagAhead_of_ne hopen, feed_tagAhead_of_ne (hkind ▸ hopen)]
      exact hnone _ _ (.cons ht hrest)

theorem closeBlock_alike {openTag openTag' keyword keyword' : Token} (ho : R openTag openTag')
    (hk : R keyword keyword') :
    Alike R Eq (closeBlock openTag keyword) (closeBlock openTag' keyword') := by
  refine .ask hR.kinds fun b => ?_
  cases b with
  | true => exact .fail (.unclosed hk ho)
  | false =>
    rw [← hR.kinds _ _ hk]
    exact .bind (.expect hR.kinds _ (.same _)) fun _ _ _ =>
      .bind (.expect hR.kinds _ (.closeOf hk)) fun _ _ _ =>
        .bind (.expect hR.kinds _ (.closeOf hk)) fun _ _ _ => endTag_alike hR

/-- Do the scripts of two bodies go the same way? -/
abbrev AlikeBodies (R : Token → Token → Prop) (f g : Position → Position)
    (body body' : Script (List Command)) : Prop :=
  Alike R (Command.AlikeAll f g) body body'

section

variable {body body' : Script (List Command)} (hb : AlikeBodies R f g body body')
  {openTag openTag' keyword keyword' : Token} (ho : R openTag openTag') (hk : R keyword keyword')
include hb ho hk

theorem enclosed_alike : Alike R (Command.Alike f g) (enclosed body openTag keyword)
    (enclosed body' openTag' keyword') :=
  .bind hb fun _ _ hcs => (closeBlock_alike hR ho hk).map fun _ _ _ => .ofList hcs

end

theorem macroWords_alike : ∀ {budget budget' : Nat}, budget ≤ budget' →
    Alike R Eq (macroWords budget) (macroWords budget')
  | 0, _, _ => .exhausted _
  | budget + 1, budget' + 1, hle => by
    unfold macroWords
    refine .accept hR.kinds (fun _ _ _ _ => ?_) (.done rfl)
    refine .bind (.expect hR.kinds _ (.same _)) fun t t' ht => ?_
    rw [hR.text_eq ht.1 (by simp [ht.2])]
    exact (macroWords_alike (Nat.le_of_succ_le_succ hle)).map_same

theorem macroName_alike {budget budget' : Nat} (hle : budget ≤ budget') :
    Alike R Eq (macroName budget) (macroName budget') := by
  refine .bind (.expect hR.kinds _ (.same _)) fun t t' ht => ?_
  rw [hR.text_eq ht.1 (by simp [ht.2])]
  exact (macroWords_alike hR hle).map_same

theorem target_alike {budget budget' : Nat} (hle : budget ≤ budget') :
    Alike R Eq (target budget) (target budget') :=
  .bind_same (variablePath_alike hR.toSameKept hle) fun _ =>
    (Alike.expect hR.kinds _ (.same _)).map fun _ _ _ => rfl

theorem bounds_alike {budget budget' : Nat} (hle : budget ≤ budget') :
    Alike R Eq (bounds budget) (bounds budget') := by
  have he := expression_alike hR.toSameKept hle
  unfold bounds
  refine .bind_same he fun first => .accept hR.kinds (fun _ _ _ _ => ?_) (.done rfl)
  refine .bind_same he fun second => .accept hR.kinds (fun _ _ _ _ => ?_) (.done rfl)
  exact he.map_same

theorem headedTag_alike {budget budget' : Nat} (hle : budget ≤ budget') {keyword keyword' : Token}
    (hk : R keyword keyword') :
    Alike R Eq (headedTag budget keyword) (headedTag budget' keyword') :=
  .bind_same (delimiter_alike hR hk false) fun _ =>
    .bind_same (expression_alike hR.toSameKept hle) fun _ => (endTag_alike hR).map_same

theorem bindingTag_alike {budget budget' : Nat} (hle : budget ≤ budget') {keyword keyword' : Token}
    (hk : R keyword keyword') :
    Alike R Eq (bindingTag budget keyword) (bindingTag budget' keyword') :=
  .bind_same (delimiter_alike hR hk false) fun _ => .bind_same (target_alike hR hle) fun _ =>
    .bind_same (expression_alike hR.toSameKept hle) fun _ => (endTag_alike hR).map_same

theorem loopHead_alike {budget budget' : Nat} (hle : budget ≤ budget') {keyword keyword' : Token}
    (hk : R keyword keyword') : Alike R Eq (loopHead budget keyword) (loopHead budget' keyword') :=
  .bind_same (delimiter_alike hR hk false) fun _ => .bind_same (target_alike hR hle) fun _ =>
    .bind_same (bounds_alike hR hle) fun _ => (endTag_alike hR).map_same

theorem defineHead_alike {budget budget' : Nat} (hle : budget ≤ budget')
    {keyword keyword' : Token} (hk : R keyword keyword') :
    Alike R Eq (defineHead budget keyword) (defineHead budget' keyword') := by
  have hparameters := parenthesized_alike hR.toSameKept (variablePath_alike hR.toSameKept hle) hle
  refine .bind_same (delimiter_alike hR hk false) fun _ => .bind_same (macroName_alike hR hle)
    fun _ => .bind (.expect hR.kinds _ (.same _)) fun _ _ _ => ?_
  exact .bind_same hparameters fun _ => (endTag_alike hR).map_same

/-! ### Tags -/

section

variable {body body' : Script (List Command)} (hb : AlikeBodies R f g body body')
include hb

theorem branches_alike {budget budget' : Nat} (hle : budget ≤ budget') :
    ∀ n n' : Nat, n ≤ n' → ∀ openTag openTag' keyword keyword' : Token, R openTag openTag' →
      openTag.kind = .tagOpen → R keyword keyword' →
        Alike R (List.Forall₂ (Branch.Alike f g))
          (branches place body (expression budget) n openTag keyword)
          (branches place' body' (expression budget') n' openTag' keyword')
  | 0, _, _, _, _, _, _, _, _, _ => .exhausted _
  | n + 1, n' + 1, hn, openTag, openTag', keyword, keyword', ho, hopen, hk => by
    rw [branches_succ, branches_succ]
    refine .bind_same (headedTag_alike hR hle hk) fun e => .bind hb fun cs cs' hcs => ?_
    have hbranch : Branch.Alike f g ⟨place openTag.offset, e, .ofList cs⟩
        ⟨place' openTag'.offset, e, .ofList cs'⟩ :=
      ⟨hR.places _ _ ho hopen, rfl, .ofList hcs⟩
    refine tagAhead_alike hR rfl rfl (fun o o' kw kw' ho hopen hkw => ?_) (.done ?_)
    · have hrest := branches_alike hle n n' (Nat.le_of_succ_le_succ hn) o o' kw kw' ho hopen hkw
      exact hrest.map fun _ _ hbs => .cons hbranch hbs
    · exact .cons hbranch .nil

theorem elseBranch_alike : Alike R (Command.Alike f g) (elseBranch body) (elseBranch body') := by
  refine tagAhead_alike hR rfl rfl (fun _ _ _ _ _ _ _ => ?_) (.done rfl)
  exact .bind_same (endTag_alike hR) fun _ => hb.map fun _ _ hcs => .ofList hcs

end

/-! ### Each tag -/

section

variable {body body' : Script (List Command)} {budget budget' : Nat}
  {openTag openTag' keyword keyword' : Token} (hle : budget ≤ budget') (ho : R openTag openTag')
  (hopen : openTag.kind = .tagOpen) (hk : R keyword keyword')
include ho hopen

theorem comment_alike : Alike R (Command.Alike f g)
    ((accept [.comment]).bind fun text => endTag.bind fun _ =>
      done (.comment (place openTag.offset) (text.map (·.text))))
    ((accept [.comment]).bind fun text => endTag.bind fun _ =>
      done (.comment (place' openTag'.offset) (text.map (·.text)))) := by
  have hp := hR.places _ _ ho hopen
  refine .accept hR.kinds (fun t t' ht hkind => (endTag_alike hR).map fun _ _ _ => ?_)
    ((endTag_alike hR).map fun _ _ _ => congrArg (Command.comment · none) hp)
  have htext := hR.text_eq ht (by simp_all)
  exact congrArg₂ Command.comment hp (congrArg some htext)

include hk

theorem contentType_alike : Alike R (Command.Alike f g)
    ((delimiter keyword false).bind fun _ => (expect .string .string).bind fun value =>
      endTag.bind fun _ => done (.contentType (place openTag.offset) (unquoted value.text)))
    ((delimiter keyword' false).bind fun _ => (expect .string .string).bind fun value =>
      endTag.bind fun _ => done (.contentType (place' openTag'.offset) (unquoted value.text))) := by
  refine .bind_same (delimiter_alike hR hk false) fun _ => ?_
  refine .bind (.expect hR.kinds _ (.same _)) fun t t' ht => (endTag_alike hR).map fun _ _ _ => ?_
  rw [hR.unquoted_eq ht.1 ht.2]
  exact congrArg (Command.contentType · (unquoted t'.text)) (hR.places _ _ ho hopen)

theorem inline_alike (hb : AlikeBodies R f g body body') : Alike R (Command.Alike f g)
    (endTag.bind fun _ => (enclosed body openTag keyword).bind fun c =>
      done (.inline (place openTag.offset) c))
    (endTag.bind fun _ => (enclosed body' openTag' keyword').bind fun c =>
      done (.inline (place' openTag'.offset) c)) :=
  .bind_same (endTag_alike hR) fun _ => (enclosed_alike hR hb ho hk).map fun _ _ hc =>
    congrArg₂ Command.inline (hR.places _ _ ho hopen) hc

include hle

theorem output_alike (form : OutputForm) : Alike R (Command.Alike f g)
    ((headedTag budget keyword).bind fun e => done (.output form (place openTag.offset) e))
    ((headedTag budget' keyword').bind fun e => done (.output form (place' openTag'.offset) e)) :=
  .bind_same (headedTag_alike hR hle hk) fun e =>
    .done (congrArg (Command.output form · e) (hR.places _ _ ho hopen))

theorem assign_alike : Alike R (Command.Alike f g)
    ((bindingTag budget keyword).bind fun p => done (.assign (place openTag.offset) p.1 p.2))
    ((bindingTag budget' keyword').bind fun p =>
      done (.assign (place' openTag'.offset) p.1 p.2)) :=
  .bind_same (bindingTag_alike hR hle hk) fun p =>
    .done (congrArg (Command.assign · p.1 p.2) (hR.places _ _ ho hopen))

theorem name_alike : Alike R (Command.Alike f g)
    ((delimiter keyword false).bind fun _ => (variablePath budget).bind fun v =>
      endTag.bind fun _ => done (.name (place openTag.offset) v))
    ((delimiter keyword' false).bind fun _ => (variablePath budget').bind fun v =>
      endTag.bind fun _ => done (.name (place' openTag'.offset) v)) :=
  .bind_same (delimiter_alike hR hk false) fun _ =>
    .bind_same (variablePath_alike hR.toSameKept hle) fun v => (endTag_alike hR).map fun _ _ _ =>
      congrArg (Command.name · v) (hR.places _ _ ho hopen)

theorem call_alike : Alike R (Command.Alike f g)
    ((delimiter keyword false).bind fun _ => (macroName budget).bind fun n =>
      (expect (.symbol .leftParen) (.symbol .leftParen)).bind fun _ =>
        (parenthesized (expression budget) budget).bind fun es => endTag.bind fun _ =>
          done (.call (place openTag.offset) n es))
    ((delimiter keyword' false).bind fun _ => (macroName budget').bind fun n =>
      (expect (.symbol .leftParen) (.symbol .leftParen)).bind fun _ =>
        (parenthesized (expression budget') budget').bind fun es => endTag.bind fun _ =>
          done (.call (place' openTag'.offset) n es)) := by
  have harguments := parenthesized_alike hR.toSameKept (expression_alike hR.toSameKept hle) hle
  refine .bind_same (delimiter_alike hR hk false) fun _ => .bind_same (macroName_alike hR hle)
    fun n => .bind (.expect hR.kinds _ (.same _)) fun _ _ _ => ?_
  exact .bind_same harguments fun es => (endTag_alike hR).map fun _ _ _ =>
    congrArg (Command.call · n es) (hR.places _ _ ho hopen)

theorem inclusion_alike (whenSoft whenHard : IncludeForm) : Alike R (Command.Alike f g)
    ((delimiter keyword true).bind fun isHard => (expression budget).bind fun e =>
      endTag.bind fun _ =>
        done (.inclusion (if isHard then whenHard else whenSoft) (place openTag.offset) e))
    ((delimiter keyword' true).bind fun isHard => (expression budget').bind fun e =>
      endTag.bind fun _ =>
        done (.inclusion (if isHard then whenHard else whenSoft) (place' openTag'.offset) e)) :=
  .bind_same (delimiter_alike hR hk true) fun isHard =>
    .bind_same (expression_alike hR.toSameKept hle) fun e => (endTag_alike hR).map fun _ _ _ =>
      congrArg (Command.inclusion (if isHard then whenHard else whenSoft) · e)
        (hR.places _ _ ho hopen)

variable (hb : AlikeBodies R f g body body')
include hb

theorem wrap_alike (form : WrapForm) : Alike R (Command.Alike f g)
    ((headedTag budget keyword).bind fun e => (enclosed body openTag keyword).bind fun c =>
      done (.wrap form (place openTag.offset) e c))
    ((headedTag budget' keyword').bind fun e => (enclosed body' openTag' keyword').bind fun c =>
      done (.wrap form (place' openTag'.offset) e c)) :=
  .bind_same (headedTag_alike hR hle hk) fun e => (enclosed_alike hR hb ho hk).map fun _ _ hc =>
    congrArg₂ (Command.wrap form · e ·) (hR.places _ _ ho hopen) hc

theorem bind_alike (form : BindForm) : Alike R (Command.Alike f g)
    ((bindingTag budget keyword).bind fun p => (enclosed body openTag keyword).bind fun c =>
      done (.bind form (place openTag.offset) p.1 p.2 c))
    ((bindingTag budget' keyword').bind fun p => (enclosed body' openTag' keyword').bind fun c =>
      done (.bind form (place' openTag'.offset) p.1 p.2 c)) :=
  .bind_same (bindingTag_alike hR hle hk) fun p => (enclosed_alike hR hb ho hk).map fun _ _ hc =>
    congrArg₂ (Command.bind form · p.1 p.2 ·) (hR.places _ _ ho hopen) hc

theorem loop_alike : Alike R (Command.Alike f g)
    ((delimiter keyword false).bind fun _ => (target budget).bind fun v =>
      (bounds budget).bind fun b => endTag.bind fun _ =>
        (enclosed body openTag keyword).bind fun c => done (.loop (place openTag.offset) v b c))
    ((delimiter keyword' false).bind fun _ => (target budget').bind fun v =>
      (bounds budget').bind fun b => endTag.bind fun _ =>
        (enclosed body' openTag' keyword').bind fun c =>
          done (.loop (place' openTag'.offset) v b c)) := by
  rw [loopHead_bind budget keyword fun v b => (enclosed body openTag keyword).bind fun c =>
      done (Command.loop (place openTag.offset) v b c),
    loopHead_bind budget' keyword' fun v b => (enclosed body' openTag' keyword').bind fun c =>
      done (Command.loop (place' openTag'.offset) v b c)]
  exact .bind_same (loopHead_alike hR hle hk) fun p =>
    (enclosed_alike hR hb ho hk).map fun _ _ hc =>
      congrArg₂ (Command.loop · p.1 p.2 ·) (hR.places _ _ ho hopen) hc

theorem define_alike : Alike R (Command.Alike f g)
    ((delimiter keyword false).bind fun _ => (macroName budget).bind fun n =>
      (expect (.symbol .leftParen) (.symbol .leftParen)).bind fun _ =>
        (parenthesized (variablePath budget) budget).bind fun vs => endTag.bind fun _ =>
          (enclosed body openTag keyword).bind fun c =>
            done (.define (place openTag.offset) n vs c))
    ((delimiter keyword' false).bind fun _ => (macroName budget').bind fun n =>
      (expect (.symbol .leftParen) (.symbol .leftParen)).bind fun _ =>
        (parenthesized (variablePath budget') budget').bind fun vs => endTag.bind fun _ =>
          (enclosed body' openTag' keyword').bind fun c =>
            done (.define (place' openTag'.offset) n vs c)) := by
  rw [defineHead_bind budget keyword fun n vs => (enclosed body openTag keyword).bind fun c =>
      done (Command.define (place openTag.offset) n vs c),
    defineHead_bind budget' keyword' fun n vs => (enclosed body' openTag' keyword').bind fun c =>
      done (Command.define (place' openTag'.offset) n vs c)]
  exact .bind_same (defineHead_alike hR hle hk) fun p =>
    (enclosed_alike hR hb ho hk).map fun _ _ hc =>
      congrArg₂ (Command.define · p.1 p.2 ·) (hR.places _ _ ho hopen) hc

theorem if_alike : Alike R (Command.Alike f g)
    ((branches place body (expression budget) budget openTag keyword).bind fun bs =>
      (elseBranch body).bind fun c => (closeBlock openTag keyword).bind fun _ =>
        done (Branch.chain bs c))
    ((branches place' body' (expression budget') budget' openTag' keyword').bind fun bs =>
      (elseBranch body').bind fun c => (closeBlock openTag' keyword').bind fun _ =>
        done (Branch.chain bs c)) := by
  refine .bind (branches_alike hR hb hle _ _ hle _ _ _ _ ho hopen hk) fun _ _ hbs => ?_
  refine .bind (elseBranch_alike hR hb) fun _ _ hc => ?_
  exact (closeBlock_alike hR ho hk).map fun _ _ _ => Branch.alike_chain hbs hc

/-- What stands behind the keyword of a tag goes the same way, or there is
nothing on either side. -/
theorem tag?_alike : Option.Rel (Alike R (Command.Alike f g))
    (tag? place body budget openTag keyword) (tag? place' body' budget' openTag' keyword') := by
  unfold tag?
  rw [← hR.kinds _ _ hk]
  split
  · exact .some (comment_alike hR ho hopen)
  · exact .some (output_alike hR hle ho hopen hk .var)
  · exact .some (output_alike hR hle ho hopen hk .lvar)
  · exact .some (output_alike hR hle ho hopen hk .evar)
  · exact .some (output_alike hR hle ho hopen hk .uvar)
  · exact .some (assign_alike hR hle ho hopen hk)
  · exact .some (name_alike hR hle ho hopen hk)
  · exact .some (wrap_alike hR hle ho hopen hk hb .escape)
  · exact .some (wrap_alike hR hle ho hopen hk hb .autoescape)
  · exact .some (wrap_alike hR hle ho hopen hk hb .alt)
  · exact .some (bind_alike hR hle ho hopen hk hb .scope)
  · exact .some (bind_alike hR hle ho hopen hk hb .each)
  · exact .some (loop_alike hR hle ho hopen hk hb)
  · exact .some (define_alike hR hle ho hopen hk hb)
  · exact .some (call_alike hR hle ho hopen hk)
  · exact .some (if_alike hR hle ho hopen hk hb)
  · exact .some (inclusion_alike hR hle ho hopen hk .soft .hard)
  · exact .some (inclusion_alike hR hle ho hopen hk .lsoft .lhard)
  · exact .some (contentType_alike hR ho hopen hk)
  · exact .some (inline_alike hR ho hopen hk hb)
  · exact .none

end

/-! ### Bodies -/

theorem commandOver_alike {body body' : Script (List Command)} {budget budget' : Nat}
    (hle : budget ≤ budget') (hb : AlikeBodies R f g body body') :
    Alike R (Command.Alike f g) (commandOver place body budget)
      (commandOver place' body' budget') := by
  unfold commandOver
  refine .bind (.expect hR.kinds _ (.same _)) fun o o' ho => .advance_then fun kw kw' hkw => ?_
  have htag := tag?_alike hR hle ho.1 ho.2 hkw hb
  generalize tag? place body budget o kw = s at htag
  generalize tag? place' body' budget' o' kw' = s' at htag
  cases htag with
  | none => exact .reject (.same _) hkw
  | some h => exact .note h

/-- **Bodies are alike** on tokens of which a tree keeps the same. -/
theorem siblings_alike : ∀ {budget budget' : Nat}, budget ≤ budget' →
    AlikeBodies R f g (siblings place budget) (siblings place' budget')
  | 0, _, _ => .exhausted _
  | budget + 1, budget' + 1, hle => by
    have hle := Nat.le_of_succ_le_succ hle
    have ih : AlikeBodies R f g (siblings place budget) (siblings place' budget') :=
      siblings_alike hle
    have hbody : AlikeBodies R f g (marked (siblings place budget))
        (marked (siblings place' budget')) := by
      intro ts ts' hts
      rw [feed_marked, feed_marked]
      exact ih ts ts' hts
    rw [siblings_succ, siblings_succ]
    refine .accept hR.kinds (fun t t' ht hk => ih.map fun cs cs' hcs => ?_) ?_
    · have hdata : (Command.data t.text).Alike f g (.data t'.text) :=
        congrArg Command.data (hR.text_eq ht (by simp_all))
      exact .cons hdata hcs
    refine .peek (fun t t' ht => ?_) 0
    rw [← hR.kinds t t' ht]
    split
    · refine .peek (fun u u' hu => ?_) 1
      rw [← hR.kinds u u' hu]
      split
      · exact .done rfl
      · exact .bind (commandOver_alike hR hle hbody) fun c c' hc =>
          ih.map fun _ _ hcs => .cons hc hcs
    · exact .done rfl

end Script
end ClearSilver
