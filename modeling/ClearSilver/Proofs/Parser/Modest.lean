/-
# Expressions look at the next token only

The scripts of expressions and of the parts of a tag are modest: they look at
the next token and no further, they take no end of a tag, and where they stop
at a token it is the last one that was pulled.

Key theorems: `Script.value_modest`, `Script.expression_modest`,
`Script.wholeExpression_modest`.
-/
import ClearSilver.Proofs.Parser.CommandReads
import ClearSilver.Proofs.Script.Upholds

namespace ClearSilver

namespace Script

/-! ### Lists and chains -/

section

variable {α : Type} {item : Script α}

theorem itemsAfterComma_modest (hi : item.Modest) : ∀ budget : Nat,
    (itemsAfterComma item budget).Modest
  | 0 => .exhausted
  | budget + 1 => by
    unfold itemsAfterComma
    refine .accept (by decide) (fun _ => ?_) (.done [])
    exact hi.bind fun _ => (itemsAfterComma_modest hi budget).map

theorem items_modest (hi : item.Modest) (budget : Nat) : (items item budget).Modest :=
  hi.bind fun _ => (itemsAfterComma_modest hi budget).map

theorem parenthesized_modest (hi : item.Modest) (budget : Nat) :
    (parenthesized item budget).Modest := by
  have hend : ∀ as : List α, ((expect (.symbol .rightParen) (.symbol .rightParen)).bind
      fun _ => done as).Modest := fun as => .map (.expect (by decide) trivial)
  refine (Modest.ask _).bind fun b => ?_
  cases b with
  | true => exact hend []
  | false => exact (items_modest hi budget).bind hend

end

/-- The end of a tag is no operator. -/
theorem ne_tagClose_of_operator? {level : BinaryLevel} {k : Token.Kind} {op : BinaryOp}
    (h : level.operator? k = some op) : k ≠ .tagClose := by
  rintro rfl
  obtain ⟨p, hp, -⟩ := Option.map_eq_some_iff.mp h
  simpa using List.find?_some hp

theorem chainFrom_modest {level : BinaryLevel} {operand : Script Expr} (hop : operand.Modest) :
    ∀ (budget : Nat) (left : Expr), (chainFrom level operand budget left).Modest
  | 0, _ => .exhausted
  | budget + 1, left => by
    unfold chainFrom
    refine .peek fun tok => ?_
    cases hoperator : level.operator? tok.kind with
    | none => exact (Modest.done left).here
    | some op =>
      refine .bind (.advance (ne_tagClose_of_operator? hoperator)) fun _ => ?_
      exact hop.bind fun right => chainFrom_modest hop budget _

theorem chained_modest {v : Script Expr} (hv : v.Modest) (budget : Nat) :
    ∀ ls : List BinaryLevel, (chained v budget ls).Modest
  | [] => hv
  | _ :: ls => (chained_modest hv budget ls).bind fun first =>
    chainFrom_modest (chained_modest hv budget ls) budget first

/-! ### Variables -/

theorem pathStep_modest {expected : Expectation} (he : expected.OfTag) :
    (pathStep expected).Modest := by
  unfold pathStep
  refine .accept (by decide) (fun _ => .done _) (.accept (by decide) (fun _ => .done _) ?_)
  exact .map (.expect (by decide) he)

theorem pathStart_modest : pathStart.Modest := by
  unfold pathStart
  exact .accept (by decide) (fun _ => pathStep_modest trivial) (.map (.expect (by decide) trivial))

theorem pathFrom_modest {index : Script Expr} (hi : index.Modest) :
    ∀ (budget : Nat) (parent : Variable), (pathFrom index budget parent).Modest
  | 0, _ => .exhausted
  | budget + 1, parent => by
    unfold pathFrom
    refine .accept (by decide) (fun _ => ?_) (.accept (by decide) (fun _ => ?_) (.done parent))
    · exact .bind (pathStep_modest trivial) fun child => pathFrom_modest hi budget _
    · exact hi.bind fun found => .bind (.expect (by decide) trivial) fun _ =>
        pathFrom_modest hi budget _

theorem path_modest {index : Script Expr} (hi : index.Modest) (budget : Nat) :
    (path index budget).Modest := pathStart_modest.bind fun first => pathFrom_modest hi budget first

/-! ### Values -/

theorem numeral_modest (sign : Option Token) : (numeral sign).Modest := by
  unfold numeral
  refine .accept (by decide) (fun _ => .done _) (.accept (by decide) (fun _ => .done _) ?_)
  exact .peek fun tok => .reject (by trivial) tok

theorem number_modest : number.Modest := by
  rw [number_eq]
  exact .accept (by decide) (fun sign => numeral_modest (some sign)) (numeral_modest none)

theorem reference_modest {index : Script Expr} (hi : index.Modest) (budget : Nat) :
    (reference index budget).Modest := by
  unfold reference
  refine (path_modest hi budget).bind fun called => ?_
  exact .accept (by decide) (fun _ => (parenthesized_modest hi budget).map) (.done _)

theorem prefixed_modest {v : Script Expr} (hv : v.Modest) (op : UnaryOp) {tok : Token}
    (hk : tok.kind ≠ .tagClose) : (prefixed op v).ModestAt tok :=
  .bind (.advance hk) fun _ => hv.map

/-- **A value looks at the next token only.** -/
theorem value_modest : ∀ budget : Nat, (value budget).Modest
  | 0 => .exhausted
  | budget + 1 => by
    have ih := value_modest budget
    have hn := chained_modest ih budget levels
    have hreference := reference_modest hn budget
    unfold value
    refine .peek fun tok => ?_
    split <;> rename_i hk
    · exact hreference.here
    · exact hreference.here
    · exact .bind (.advance (by simp [hk])) fun _ => .done _
    · exact number_modest.here
    · exact number_modest.here
    · exact number_modest.here
    · exact number_modest.here
    · exact prefixed_modest ih .numeric (by simp [hk])
    · exact prefixed_modest ih .not (by simp [hk])
    · exact prefixed_modest ih .exist (by simp [hk])
    · refine .bind (.advance (by simp [hk])) fun _ => (items_modest hn budget).bind fun _ => ?_
      exact .map (.expect (by decide) trivial)
    · exact .reject (by trivial) tok

theorem expression_modest (budget : Nat) : (expression budget).Modest :=
  chained_modest (value_modest budget) budget levels

theorem variablePath_modest (budget : Nat) : (variablePath budget).Modest :=
  path_modest (expression_modest budget) budget

/-- **An expression and its end need one token in the queue.** -/
theorem wholeExpression_modest (budget : Nat) : (wholeExpression budget).Modest :=
  (expression_modest budget).bind fun _ => .map (.expect (by decide) trivial)

/-! ### Parts of a tag -/

theorem delimiter_modest (keyword : Token) (allowHard : Bool) :
    (delimiter keyword allowHard).Modest := by
  have hreject : ((peek 0).bind fun tok =>
      (reject (.delimiterAfter keyword.text) tok : Script Bool)).Modest :=
    .peek fun tok => .reject (by trivial) tok
  unfold delimiter
  refine .accept (by decide) (fun _ => .done _) ?_
  cases allowHard with
  | false => exact hreject
  | true => exact .accept (by decide) (fun _ => .done _) hreject

theorem macroWords_modest : ∀ budget : Nat, (macroWords budget).Modest
  | 0 => .exhausted
  | budget + 1 => by
    unfold macroWords
    refine .accept (by decide) (fun _ => ?_) (.done [])
    exact .bind (.expect (by decide) trivial) fun _ => (macroWords_modest budget).map

theorem macroName_modest (budget : Nat) : (macroName budget).Modest :=
  .bind (.expect (by decide) trivial) fun _ => (macroWords_modest budget).map

theorem target_modest (budget : Nat) : (target budget).Modest :=
  (variablePath_modest budget).bind fun _ => .map (.expect (by decide) trivial)

theorem bounds_modest (budget : Nat) : (bounds budget).Modest := by
  have he := expression_modest budget
  unfold bounds
  refine he.bind fun _ => .accept (by decide) (fun _ => he.bind fun _ => ?_) (.done _)
  exact .accept (by decide) (fun _ => he.map) (.done _)

end Script
end ClearSilver
