/-
# The budget of the grammar lasts

Every use of the budget follows a token that was taken, so a script of the
grammar does not spend it on fewer tokens. What takes the place of an operand,
of an index or of a body is known to last as long, and a block or a command in
front of others takes a token, so the others may last one token less.

Key theorems: `Script.value_lasts`, `Script.expression_lasts`, `Script.siblings_lasts`,
`Script.template_lasts`.
-/
import ClearSilver.Proofs.Parser.CommandReads
import ClearSilver.Proofs.Script.Lasts

namespace ClearSilver

namespace Script

variable {β : Type} {m n : Nat}

/-! ### Lists and chains -/

theorem itemsAfterComma_lasts {α : Type} {item : Script α} : ∀ {budget : Nat},
    item.Lasts budget → (itemsAfterComma item budget).Lasts budget
  | 0, _ => .zero _
  | budget + 1, hi => by
    have hi : item.Lasts budget := hi.mono (Nat.le_succ budget)
    unfold itemsAfterComma
    refine .accept (fun _ => ?_) (.done _ _) (Nat.le_refl _)
    exact .bind hi fun _ => (itemsAfterComma_lasts hi).map

theorem items_lasts {α : Type} {item : Script α} {budget : Nat} (hi : item.Lasts budget) :
    (items item budget).Lasts budget :=
  .bind hi fun _ => (itemsAfterComma_lasts hi).map

theorem parenthesized_lasts {α : Type} {item : Script α} {budget : Nat} (hi : item.Lasts budget) :
    (parenthesized item budget).Lasts budget := by
  have hend : ∀ as : List α, ((expect (.symbol .rightParen) (.symbol .rightParen)).bind
      fun _ => done as).Lasts budget := fun as => (Lasts.expect _ _ _).map
  refine .ask fun b => ?_
  cases b with
  | true => exact hend []
  | false => exact .bind (items_lasts hi) hend

theorem chainFrom_lasts {level : BinaryLevel} {operand : Script Expr} : ∀ {budget : Nat}
    (left : Expr), operand.Lasts budget → (chainFrom level operand budget left).Lasts budget
  | 0, _, _ => .zero _
  | budget + 1, left, hop => by
    have hop : operand.Lasts budget := hop.mono (Nat.le_succ budget)
    unfold chainFrom
    refine .peek fun tok => ?_
    cases level.operator? tok.kind with
    | none => exact .done left _
    | some op =>
      refine .advance_then (fun _ => ?_) (Nat.le_refl _)
      exact .bind hop fun right => chainFrom_lasts _ hop

theorem chained_lasts {v : Script Expr} {budget : Nat} (hv : v.Lasts budget) :
    ∀ ls : List BinaryLevel, (chained v budget ls).Lasts budget
  | [] => hv
  | _ :: ls => .bind (chained_lasts hv ls) fun first => chainFrom_lasts first (chained_lasts hv ls)

/-! ### Variables -/

theorem pathStep_lasts (expected : Expectation) (n : Nat) : (pathStep expected).Lasts n := by
  unfold pathStep
  refine .accept (fun _ => .done _ n) ?_ (Nat.le_succ n)
  refine .accept (fun _ => .done _ n) ?_ (Nat.le_succ n)
  exact (Lasts.expect _ _ n).map

/-- A path begins with a token of its own. -/
theorem pathStart_then {k : Variable → Script β} (hk : ∀ v, (k v).Lasts n) :
    (pathStart.bind k).Lasts (n + 1) := by
  unfold pathStart
  simp only [Bind.bind, bind_assoc]
  refine .accept (fun _ => .bind (pathStep_lasts _ n) hk) ?_ (Nat.le_refl _)
  rw [bind_assoc]
  exact .expect_then (fun word => hk (.name word.text)) (Nat.le_refl _)

theorem pathFrom_lasts {index : Script Expr} : ∀ {budget : Nat} (parent : Variable),
    index.Lasts budget → (pathFrom index budget parent).Lasts budget
  | 0, _, _ => .zero _
  | budget + 1, parent, hi => by
    have hi : index.Lasts budget := hi.mono (Nat.le_succ budget)
    unfold pathFrom
    refine .accept (fun _ => ?_) (.accept (fun _ => ?_) (.done _ _) (Nat.le_refl _)) (Nat.le_refl _)
    · exact .bind (pathStep_lasts _ _) fun child => pathFrom_lasts _ hi
    · exact .bind hi fun found => .bind (.expect _ _ _) fun _ => pathFrom_lasts _ hi

theorem path_lasts {index : Script Expr} {budget : Nat} (hi : index.Lasts budget) :
    (path index budget).Lasts (budget + 1) :=
  pathStart_then fun first => pathFrom_lasts first hi

/-! ### Values -/

theorem numeral_lasts (sign : Option Token) (n : Nat) : (numeral sign).Lasts n := by
  unfold numeral
  refine .accept (fun _ => .done _ n) ?_ (Nat.le_succ n)
  refine .accept (fun _ => .done _ n) ?_ (Nat.le_succ n)
  exact .peek fun tok => .reject _ tok n

theorem number_lasts (n : Nat) : number.Lasts n := by
  rw [number_eq]
  exact .accept (fun sign => numeral_lasts (some sign) n) (numeral_lasts none n) (Nat.le_succ n)

theorem reference_lasts {index : Script Expr} {budget : Nat} (hi : index.Lasts budget) :
    (reference index budget).Lasts (budget + 1) := by
  unfold reference
  refine .bind (path_lasts hi) fun called => ?_
  exact .accept (fun _ => (parenthesized_lasts hi).map) (.done _ _) (Nat.le_refl _)

theorem prefixed_lasts {v : Script Expr} (hv : v.Lasts n) (op : UnaryOp) :
    (prefixed op v).Lasts (n + 1) :=
  .advance_then (fun _ => hv.map) (Nat.le_refl _)

/-- **The budget of a value lasts** on fewer tokens. -/
theorem value_lasts : ∀ budget : Nat, (value budget).Lasts budget
  | 0 => .zero _
  | budget + 1 => by
    have ih : (value budget).Lasts budget := value_lasts budget
    have hn := chained_lasts ih levels
    have hreference := reference_lasts hn
    unfold value
    refine .look fun tok => ?_
    simp only [bind]
    split
    · exact hreference
    · exact hreference
    · exact .advance_then (fun _ => .done _ budget) (Nat.le_refl _)
    · exact number_lasts _
    · exact number_lasts _
    · exact number_lasts _
    · exact number_lasts _
    · exact prefixed_lasts ih .numeric
    · exact prefixed_lasts ih .not
    · exact prefixed_lasts ih .exist
    · refine .advance_then (fun _ => .bind (items_lasts hn) fun _ => ?_) (Nat.le_refl _)
      exact (Lasts.expect _ _ _).map
    · exact .reject _ tok _

/-- The budget of an expression lasts on fewer tokens. -/
theorem expression_lasts (budget : Nat) : (expression budget).Lasts budget :=
  chained_lasts (value_lasts budget) levels

/-- The budget of a variable lasts on fewer tokens. -/
theorem variablePath_lasts (budget : Nat) : (variablePath budget).Lasts budget :=
  (path_lasts (expression_lasts budget)).mono (Nat.le_succ budget)

/-! ### Parts of a tag -/

theorem delimiter_lasts (keyword : Token) (allowHard : Bool) (n : Nat) :
    (delimiter keyword allowHard).Lasts n := by
  have hreject : ((peek 0).bind fun tok =>
      (reject (.delimiterAfter keyword.text) tok : Script Bool)).Lasts n :=
    .peek fun tok => .reject _ tok n
  unfold delimiter
  refine .accept (fun _ => .done _ n) ?_ (Nat.le_succ n)
  cases allowHard with
  | false => exact hreject
  | true => exact .accept (fun _ => .done _ n) hreject (Nat.le_succ n)

theorem endTag_lasts (n : Nat) : endTag.Lasts n := (Lasts.expect _ _ n).map

theorem tagAhead_then {kind : Token.Kind} {k : Bool → Script β} (hk : ∀ b, (k b).Lasts n) :
    ((tagAhead kind).bind k).Lasts n := by
  unfold tagAhead
  simp only [Bind.bind, bind_assoc]
  refine .peek fun tok => ?_
  split
  · rw [bind_assoc]
    exact .peek fun tok' => hk _
  · exact hk _

theorem closeBlock_lasts (openTag keyword : Token) (n : Nat) :
    (closeBlock openTag keyword).Lasts n := by
  refine .ask fun b => ?_
  cases b with
  | true => exact .fail (by simp) n
  | false =>
    exact .bind (.expect _ _ n) fun _ => .bind (.expect _ _ n) fun _ =>
      .bind (.expect _ _ n) fun _ => endTag_lasts n

theorem enclosed_lasts {body : Script (List Command)} (hb : body.Lasts n)
    (openTag keyword : Token) : (enclosed body openTag keyword).Lasts n :=
  .bind hb fun _ => (closeBlock_lasts openTag keyword n).map

theorem macroWords_lasts : ∀ budget : Nat, (macroWords budget).Lasts budget
  | 0 => .zero _
  | budget + 1 => by
    unfold macroWords
    refine .accept (fun _ => ?_) (.done _ _) (Nat.le_refl _)
    exact .bind (.expect _ _ _) fun _ => (macroWords_lasts budget).map

theorem macroName_lasts (budget : Nat) : (macroName budget).Lasts budget :=
  .bind (.expect _ _ _) fun _ => (macroWords_lasts budget).map

theorem target_lasts (budget : Nat) : (target budget).Lasts budget :=
  .bind (variablePath_lasts budget) fun _ => (Lasts.expect _ _ _).map

theorem bounds_lasts (budget : Nat) : (bounds budget).Lasts budget := by
  have he := expression_lasts budget
  unfold bounds
  refine .bind he fun _ => .accept (fun _ => .bind he fun _ => ?_) (.done _ _)
    (Nat.le_succ _)
  exact .accept (fun _ => he.map) (.done _ _) (Nat.le_succ _)

theorem headedTag_lasts (budget : Nat) (keyword : Token) :
    (headedTag budget keyword).Lasts budget :=
  .bind (delimiter_lasts keyword false budget) fun _ => .bind (expression_lasts budget) fun _ =>
    (endTag_lasts budget).map

theorem bindingTag_lasts (budget : Nat) (keyword : Token) :
    (bindingTag budget keyword).Lasts budget :=
  .bind (delimiter_lasts keyword false budget) fun _ => .bind (target_lasts budget) fun _ =>
    .bind (expression_lasts budget) fun _ => (endTag_lasts budget).map

/-! ### Tags -/

section

variable {body : Script (List Command)} {budget : Nat} (hb : body.Lasts budget)
include hb

theorem branches_lasts (place : Nat → Position) {condition : Script Expr}
    (hc : condition.Lasts budget) : ∀ n ≤ budget, ∀ openTag keyword : Token,
      (branches place body condition n openTag keyword).Lasts n
  | 0, _, _, _ => .zero _
  | n + 1, hn, openTag, keyword => by
    unfold branches
    refine .bind (delimiter_lasts keyword false _) fun _ => .bind (hc.mono hn) fun test => ?_
    refine .bind (endTag_lasts _) fun _ => .bind (hb.mono hn) fun block => ?_
    refine tagAhead_then fun b => ?_
    cases b with
    | false => exact .done _ _
    | true =>
      refine .advance_then (fun openTag' => ?_) (Nat.le_refl _)
      refine .advance_then (fun keyword' => ?_) (Nat.le_succ n)
      exact (branches_lasts place hc n (Nat.le_of_succ_le hn) openTag' keyword').map

theorem elseBranch_lasts : (elseBranch body).Lasts budget := by
  refine tagAhead_then fun b => ?_
  cases b with
  | false => exact .done _ _
  | true =>
    refine .advance_then (fun _ => .advance_then (fun _ => ?_) (Nat.le_succ _)) (Nat.le_succ _)
    exact .bind (endTag_lasts budget) fun _ => hb.map

theorem tag?_lasts {place : Nat → Position} {openTag keyword : Token} {s : Script Command}
    (h : tag? place body budget openTag keyword = some s) : s.Lasts budget := by
  have hd := fun allowHard => delimiter_lasts keyword allowHard budget
  have he := expression_lasts budget
  have hend := endTag_lasts budget
  have hhead := headedTag_lasts budget keyword
  have hbinding := bindingTag_lasts budget keyword
  have hblock := enclosed_lasts hb openTag keyword
  have hoption : ∀ k : Option Token → Script Command, (∀ tok, (k tok).Lasts budget) →
      ((accept [.comment]).bind k).Lasts budget := fun k hk =>
    .accept (fun tok => hk (some tok)) (hk none) (Nat.le_succ budget)
  unfold tag? at h
  split at h <;> cases h
  · exact hoption _ fun text => hend.map
  · exact hhead.map
  · exact hhead.map
  · exact hhead.map
  · exact hhead.map
  · exact .bind hbinding fun p => .done _ _
  · exact .bind (hd false) fun _ => .bind (variablePath_lasts budget) fun _ => hend.map
  · exact .bind hhead fun _ => hblock.map
  · exact .bind hhead fun _ => hblock.map
  · exact .bind hhead fun _ => hblock.map
  · exact .bind hbinding fun _ => hblock.map
  · exact .bind hbinding fun _ => hblock.map
  · exact .bind (hd false) fun _ => .bind (target_lasts budget) fun _ =>
      .bind (bounds_lasts budget) fun _ => .bind hend fun _ => hblock.map
  · exact .bind (hd false) fun _ => .bind (macroName_lasts budget) fun _ =>
      .bind (.expect _ _ _) fun _ => .bind (parenthesized_lasts (variablePath_lasts budget))
        fun _ => .bind hend fun _ => hblock.map
  · exact .bind (hd false) fun _ => .bind (macroName_lasts budget) fun _ =>
      .bind (.expect _ _ _) fun _ => .bind (parenthesized_lasts he) fun _ => hend.map
  · exact .bind (branches_lasts hb place he budget (Nat.le_refl _) openTag keyword) fun _ =>
      .bind (elseBranch_lasts hb) fun _ => (closeBlock_lasts openTag keyword budget).map
  · exact .bind (hd true) fun _ => .bind he fun _ => hend.map
  · exact .bind (hd true) fun _ => .bind he fun _ => hend.map
  · exact .bind (hd false) fun _ => .bind (.expect _ _ _) fun _ => hend.map
  · exact .bind hend fun _ => hblock.map

/-- A command takes a token of its own. -/
theorem commandOver_then (place : Nat → Position) {k : Command → Script β}
    (hk : ∀ c, (k c).Lasts budget) :
    ((commandOver place body budget).bind k).Lasts (budget + 1) := by
  unfold commandOver
  simp only [Bind.bind, bind_assoc]
  refine .expect_then (fun openTag => ?_) (Nat.le_refl _)
  refine .advance_then (fun keyword => ?_) (Nat.le_succ _)
  cases htag : tag? place body budget openTag keyword with
  | none => exact .reject _ keyword _
  | some rest => exact .note (.bind (tag?_lasts hb htag) hk)

end

/-! ### Bodies -/

theorem marked_lasts {body : Script (List Command)} (hb : body.Lasts n) :
    (marked body).Lasts n := by
  intro ts hlt
  rw [feed_marked]
  exact hb ts hlt

/-- **The budget of a body lasts** on fewer tokens. -/
theorem siblings_lasts (place : Nat → Position) : ∀ budget : Nat,
    (siblings place budget).Lasts budget
  | 0 => .zero _
  | budget + 1 => by
    have ih := siblings_lasts place budget
    have hbody := marked_lasts ih
    rw [siblings_succ]
    refine .accept (fun _ => ih.map) ?_ (Nat.le_refl _)
    refine .peek fun tok => ?_
    split
    · refine .peek fun tok' => ?_
      split
      · exact .done [] _
      · exact commandOver_then hbody place fun _ => ih.map
    · exact .done [] _

/-- **The budget of a template lasts** on fewer tokens. -/
theorem template_lasts (place : Nat → Position) (budget : Nat) :
    (template place budget).Lasts budget := by
  refine .bind (marked_lasts (siblings_lasts place budget)) fun found => .ask fun b => ?_
  cases b with
  | true => exact .note (.done _ _)
  | false => exact .peek fun tok => .reject _ tok _

end Script
end ClearSilver
