/-
# What the scripts of expressions keep

The tokens that the script of an expression takes record the tree it gives:
every word, number and string of them is in the tree once and in order. Chains
and paths go on from a tree that was built before, so their scripts record it
with whatever tokens recorded that tree. No script of an expression leaves a
block open.

Key theorems: `Script.path_keeps`, `Script.value_keeps`, `Script.expression_keeps`,
`Script.variablePath_keeps`.
-/
import ClearSilver.Proofs.Parser.ExpressionReads
import ClearSilver.Proofs.Script.Keeps
import ClearSilver.Proofs.Tree.Records

namespace ClearSilver

namespace Script

variable (place : Nat → Position) (mayLeaveOpen : Prop)

/-- Do the tokens that the script takes record the expression it gives? -/
abbrev KeepsExpr (s : Script Expr) : Prop :=
  s.Keeps (fun us e => RecordsAll place us [.expr e]) mayLeaveOpen

/-- Do the tokens that the script takes record the variable it gives? -/
abbrev KeepsPath (s : Script Variable) : Prop :=
  s.Keeps (fun us v => RecordsAll place us [.path v]) mayLeaveOpen

variable {place} {mayLeaveOpen}

/-! ### Lists -/

section

variable {α : Type} {item : Script α} {n : α → Node}

theorem itemsAfterComma_keeps
    (hi : item.Keeps (fun us a => RecordsAll place us [n a]) mayLeaveOpen) :
    ∀ budget : Nat, (itemsAfterComma item budget).Keeps
      (fun us as => RecordsAll place us (as.map n)) mayLeaveOpen
  | 0 => .exhausted
  | budget + 1 => by
    unfold itemsAfterComma
    refine .accept (fun tok htok => ?_) (.done .nil)
    rw [List.mem_singleton] at htok
    refine .bind hi fun a us ha => ?_
    refine (itemsAfterComma_keeps hi budget).map fun vs as has => ?_
    exact .mark (by rw [htok]; rfl) (ha.append has)

theorem items_keeps (hi : item.Keeps (fun us a => RecordsAll place us [n a]) mayLeaveOpen)
    (budget : Nat) :
    (items item budget).Keeps (fun us as => RecordsAll place us (as.map n)) mayLeaveOpen := by
  unfold items
  refine .bind hi fun a us ha => ?_
  refine (itemsAfterComma_keeps hi budget).map fun vs as has => ?_
  exact ha.append has

theorem parenthesized_keeps (hi : item.Keeps (fun us a => RecordsAll place us [n a]) mayLeaveOpen)
    (budget : Nat) :
    (parenthesized item budget).Keeps (fun us as => RecordsAll place us (as.map n))
      mayLeaveOpen := by
  have hend : ∀ (as : List α) (us : List Token), RecordsAll place us (as.map n) →
      ((expect (.symbol .rightParen) (.symbol .rightParen)).bind fun _ => done as).Keeps
        (fun vs as => RecordsAll place (us ++ vs) (as.map n)) mayLeaveOpen := by
    intro as us has
    refine (Keeps.expect _ _).map fun vs tok htok => ?_
    rw [htok.1]
    have hmark : RecordsAll place [tok] [] := .mark (by rw [htok.2]; rfl) .nil
    have hall := has.append hmark
    rwa [List.append_nil] at hall
  unfold parenthesized
  refine .ask ?_ ?_
  · exact hend [] [] .nil
  · exact .bind (items_keeps hi budget) fun as us has => hend as us has

end

/-! ### Chains of operators -/

variable {operand index v : Script Expr}

/-- An operator with its operands. -/
theorem records_binary {us vs : List Token} {tok : Token} {level : BinaryLevel} {op : BinaryOp}
    {left right : Expr} (hop : level.operator? tok.kind = some op)
    (hl : RecordsAll place us [.expr left]) (hr : RecordsAll place vs [.expr right]) :
    RecordsAll place (us ++ tok :: vs) [.expr (.binary op left right)] := by
  obtain ⟨s, -, hs⟩ := operator?_eq_some hop
  have hright : RecordsAll place (tok :: vs) [.expr right] := .mark (by rw [hs]; rfl) hr
  exact .node rfl (hl.append hright)

theorem chainFrom_keeps {level : BinaryLevel} (hop : operand.KeepsExpr place mayLeaveOpen) :
    ∀ (budget : Nat) (left : Expr), (chainFrom level operand budget left).Keeps
      (fun vs e => ∀ us, RecordsAll place us [.expr left] →
        RecordsAll place (us ++ vs) [.expr e])
      mayLeaveOpen
  | 0, _ => .exhausted
  | budget + 1, left => by
    unfold chainFrom
    refine .peek fun tok => ?_
    cases hk : level.operator? tok.kind with
    | none =>
      have hdone : ∀ us, RecordsAll place us [.expr left] →
          RecordsAll place (us ++ []) [.expr left] := fun us hl => by rwa [List.append_nil]
      exact (Keeps.done hdone).at_token
    | some op =>
      refine .advance (.bind hop fun right vs hr => ?_)
      refine (chainFrom_keeps hop budget _).weaken fun ws e he us hl => ?_
      have hall := he _ (records_binary hk hl hr)
      simpa using hall

theorem chained_keeps (hv : v.KeepsExpr place mayLeaveOpen) (budget : Nat) :
    ∀ ls : List BinaryLevel, (chained v budget ls).KeepsExpr place mayLeaveOpen
  | [] => hv
  | level :: ls => by
    have hop := chained_keeps hv budget ls
    refine .bind hop fun first us hfirst => ?_
    exact (chainFrom_keeps hop budget first).weaken fun vs e he => he us hfirst

/-! ### Variables -/

theorem pathStep_keeps (place : Nat → Position) (expected : Expectation) :
    (pathStep expected).KeepsPath place mayLeaveOpen := by
  unfold pathStep
  refine .accept (fun tok htok => ?_) (.accept (fun tok htok => ?_) ?_)
  · rw [List.mem_singleton] at htok
    exact .done (.node rfl (.ofText (by rw [htok]; rfl)))
  · rw [List.mem_singleton] at htok
    exact .done (.node rfl (.ofText (by rw [htok]; rfl)))
  · refine (Keeps.expect _ _).map fun us word hword => ?_
    rw [hword.1]
    exact .node rfl (.ofText (by rw [hword.2]; rfl))

theorem pathStart_keeps (place : Nat → Position) : pathStart.KeepsPath place mayLeaveOpen := by
  unfold pathStart
  refine .accept (fun tok htok => ?_) ?_
  · rw [List.mem_singleton] at htok
    exact (pathStep_keeps place _).weaken fun us v hv => .mark (by rw [htok]; rfl) hv
  · refine (Keeps.expect _ _).map fun us word hword => ?_
    rw [hword.1]
    exact .node rfl (.ofText (by rw [hword.2]; rfl))

theorem pathFrom_keeps (hi : index.KeepsExpr place mayLeaveOpen) :
    ∀ (budget : Nat) (parent : Variable), (pathFrom index budget parent).Keeps
      (fun vs v => ∀ us, RecordsAll place us [.path parent] →
        RecordsAll place (us ++ vs) [.path v])
      mayLeaveOpen
  | 0, _ => .exhausted
  | budget + 1, parent => by
    unfold pathFrom
    refine .accept (fun tok htok => ?_) (.accept (fun tok htok => ?_) ?_)
    · rw [List.mem_singleton] at htok
      refine .bind (pathStep_keeps place _) fun child vs hc => ?_
      refine (pathFrom_keeps hi budget _).weaken fun ws v hv us hp => ?_
      have hchild : RecordsAll place (tok :: vs) [.path child] := .mark (by rw [htok]; rfl) hc
      have hall := hv _ (.node rfl (hp.append hchild))
      simpa using hall
    · rw [List.mem_singleton] at htok
      refine .bind hi fun e vs he => .bind (.expect _ _) fun close cs hclose => ?_
      refine (pathFrom_keeps hi budget _).weaken fun ws v hv us hp => ?_
      have hopen : RecordsAll place (tok :: vs) [.expr e] := .mark (by rw [htok]; rfl) he
      have hend : RecordsAll place [close] [] := .mark (by rw [hclose.2]; rfl) .nil
      have hall := hv _ (.node rfl (hp.append (hopen.append hend)))
      rw [hclose.1]
      simpa using hall
    · refine .done fun us hp => ?_
      rwa [List.append_nil]

theorem path_keeps (hi : index.KeepsExpr place mayLeaveOpen) (budget : Nat) :
    (path index budget).KeepsPath place mayLeaveOpen := by
  unfold path
  refine .bind (pathStart_keeps place) fun first us hfirst => ?_
  exact (pathFrom_keeps hi budget first).weaken fun vs v hv => hv us hfirst

/-! ### Values -/

/-- A sign records nothing. -/
theorem records_signed {us : List Token} (sign : Option Token) {e : Expr}
    (he : RecordsAll place us [.expr e]) : RecordsAll place us [.expr (signed sign e)] := by
  unfold signed
  split
  · exact .node rfl he
  · exact he

theorem numeral_keeps (sign : Option Token) : (numeral sign).KeepsExpr place mayLeaveOpen := by
  unfold numeral
  refine .accept (fun tok htok => ?_) (.accept (fun tok htok => ?_) .reject)
  · rw [List.mem_singleton] at htok
    exact .done (records_signed sign (.node rfl (.ofText (by rw [htok]; rfl))))
  · rw [List.mem_singleton] at htok
    exact .done (records_signed sign (.node rfl (.ofText (by rw [htok]; rfl))))

theorem number_keeps : number.KeepsExpr place mayLeaveOpen := by
  rw [number_eq]
  refine .accept (fun tok htok => ?_) (numeral_keeps none)
  have hmark : tok.kind.isMark = true := by
    simp only [List.mem_cons, List.not_mem_nil, or_false] at htok
    rcases htok with h | h
    · rw [h]
      rfl
    · rw [h]
      rfl
  exact (numeral_keeps (some tok)).weaken fun us e he => .mark hmark he

theorem children_sequence (es : List Expr) :
    (Node.expr (.sequence es)).children = es.map .expr := List.append_nil _

theorem children_apply (callee : Variable) (es : List Expr) :
    (Node.expr (.apply callee es)).children = .path callee :: es.map .expr :=
  congrArg (Node.path callee :: ·) (List.append_nil _)

theorem records_grouped {us : List Token} {es : List Expr}
    (h : RecordsAll place us (es.map .expr)) : RecordsAll place us [.expr (grouped es)] := by
  unfold grouped
  split
  · exact h
  · refine .node rfl ?_
    rw [children_sequence]
    exact h

theorem reference_keeps (hi : index.KeepsExpr place mayLeaveOpen) (budget : Nat) :
    (reference index budget).KeepsExpr place mayLeaveOpen := by
  unfold reference
  refine .bind (path_keeps hi budget) fun called us hcalled => ?_
  refine .accept (fun tok htok => ?_) ?_
  · rw [List.mem_singleton] at htok
    refine (parenthesized_keeps hi budget).map fun vs as has => ?_
    have hargs : RecordsAll place (tok :: vs) (as.map .expr) := .mark (by rw [htok]; rfl) has
    refine .node rfl ?_
    rw [children_apply]
    exact hcalled.append hargs
  · refine .done ?_
    rw [List.append_nil]
    exact .node rfl hcalled

theorem prefixed_keeps (hv : v.KeepsExpr place mayLeaveOpen) (op : UnaryOp) {tok : Token}
    {s : Symbol} (htok : tok.kind = .symbol s) :
    KeepsAt tok (prefixed op v) (fun us e => RecordsAll place us [.expr e]) mayLeaveOpen := by
  unfold prefixed
  refine .advance (hv.map fun us e he => ?_)
  have hunary : RecordsAll place us [.expr (.unary op e)] := .node rfl he
  exact .mark (by rw [htok]; rfl) hunary

/-- **A value is recorded** by the tokens it is read from. -/
theorem value_keeps : ∀ budget : Nat, (value budget).KeepsExpr place mayLeaveOpen
  | 0 => .exhausted
  | budget + 1 => by
    have ih : (value budget).KeepsExpr place mayLeaveOpen := value_keeps budget
    have hn := chained_keeps ih budget levels
    have hreference := reference_keeps hn budget
    unfold value
    refine .look fun tok => ?_
    simp only [bind]
    split
    · exact hreference.at_token
    · exact hreference.at_token
    · rename_i hk
      exact .advance (.done (.node rfl (.ofString hk)))
    · exact number_keeps.at_token
    · exact number_keeps.at_token
    · exact number_keeps.at_token
    · exact number_keeps.at_token
    · exact prefixed_keeps ih .numeric ‹_›
    · exact prefixed_keeps ih .not ‹_›
    · exact prefixed_keeps ih .exist ‹_›
    · rename_i hk
      refine .advance (.bind (items_keeps hn budget) fun es us hes => ?_)
      refine (Keeps.expect _ _).map fun vs close hclose => ?_
      have hend : RecordsAll place [close] [] := .mark (by rw [hclose.2]; rfl) .nil
      have hall := hes.append hend
      rw [List.append_nil] at hall
      rw [hclose.1]
      exact records_grouped (.mark (by rw [hk]; rfl) hall)
    · exact .reject

/-- An expression is recorded by the tokens it is read from. -/
theorem expression_keeps (place : Nat → Position) (budget : Nat) :
    (expression budget).KeepsExpr place mayLeaveOpen :=
  chained_keeps (value_keeps budget) budget levels

/-- A variable is recorded by the tokens it is read from. -/
theorem variablePath_keeps (place : Nat → Position) (budget : Nat) :
    (variablePath budget).KeepsPath place mayLeaveOpen :=
  path_keeps (expression_keeps place budget) budget

end Script
end ClearSilver
