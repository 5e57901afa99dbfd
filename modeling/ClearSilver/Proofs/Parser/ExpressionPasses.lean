/-
# What the scripts of expressions take

For each way to write a part of an expression, what its script gives where the
tokens of that part stand and the next token does not carry it on. Lists,
paths and chains go on item by item, so a step is said to pass to the script of
the items behind it. The budgets only have to be greater than the number of
items or tokens.

Key definitions: `Token.Kind.MorePath`, `Token.Kind.Extends`, `Script.TakesAll`.
Key theorems: `Script.itemsAfterComma_takes`, `Script.pathFrom_dot`,
`Script.pathFrom_index`, `Script.chainFrom_more`, `Script.value_reference`,
`Script.value_group`.
-/
import ClearSilver.Parser.Expression
import ClearSilver.Proofs.Parser.ExpressionReads
import ClearSilver.Proofs.Script.Passes

namespace ClearSilver

/-- Does a token of this kind carry a path on? -/
def Token.Kind.MorePath (k : Token.Kind) : Prop := k = .symbol .dot ∨ k = .symbol .leftBracket

/-- Does a token of this kind carry an expression on whose operators are those
of these levels? -/
def Token.Kind.Extends (ls : List BinaryLevel) (k : Token.Kind) : Prop :=
  k.MorePath ∨ k = .symbol .leftParen ∨ ∃ level ∈ ls, level.operator? k ≠ none

instance (k : Token.Kind) : Decidable k.MorePath :=
  inferInstanceAs (Decidable (k = .symbol .dot ∨ k = .symbol .leftBracket))

instance (ls : List BinaryLevel) (k : Token.Kind) : Decidable (k.Extends ls) :=
  inferInstanceAs (Decidable (k.MorePath ∨ k = .symbol .leftParen ∨
    ∃ level ∈ ls, level.operator? k ≠ none))

namespace Script

/-! ### Lists -/

section

variable {α : Type} {item : Script α} {stop : Token.Kind → Prop}

/-- Tokens that are items with a comma before each. -/
inductive TakesAll (item : Script α) (stop : Token.Kind → Prop) : List Token → List α → Prop
  | nil : TakesAll item stop [] []
  | cons {tok : Token} {us ts : List Token} {a : α} {as : List α} (htok : tok.kind = .symbol .comma)
      (h : item.Takes us a (Clear stop)) (hs : TakesAll item stop ts as) :
      TakesAll item stop (tok :: us ++ ts) (a :: as)

/-- Does a token of this kind carry a list on? -/
def MoreItems (stop : Token.Kind → Prop) (k : Token.Kind) : Prop := stop k ∨ k = .symbol .comma

/-- What follows an item stops it: a comma, or what stops the list. -/
theorem TakesAll.clear {ts rest : List Token} {as : List α} (h : TakesAll item stop ts as)
    (hcomma : ¬ stop (.symbol .comma)) (hrest : Clear (MoreItems stop) rest) :
    Clear stop (ts ++ rest) := by
  cases h with
  | nil => exact hrest.weaken fun _ => .inl
  | cons htok _ _ => exact .cons (by rwa [htok]) _

theorem itemsAfterComma_takes (hcomma : ¬ stop (.symbol .comma)) :
    ∀ {ts : List Token} {as : List α} {budget : Nat}, TakesAll item stop ts as →
      as.length < budget → (itemsAfterComma item budget).Takes ts as (Clear (MoreItems stop))
  | _, _, budget + 1, .nil, _ => by
    refine .skip_rest (fun rest h => h.weaken fun k hk => ?_) (.refl _ _)
    exact .inr (List.mem_singleton.mp hk)
  | _, a :: as, budget + 1, .cons htok h hs, hlt => by
    have hlt' : as.length < budget := Nat.lt_of_succ_lt_succ hlt
    have hs' := itemsAfterComma_takes hcomma hs hlt'
    have hitem := Takes.bind h (k := fun a => (itemsAfterComma item budget).bind fun rest =>
      done (a :: rest)) (hs'.map (a :: ·)) fun rest hrest => hs.clear hcomma hrest
    exact .accept (List.mem_singleton.mpr htok) hitem

theorem items_takes (hcomma : ¬ stop (.symbol .comma)) {us ts : List Token} {a : α} {as : List α}
    {budget : Nat} (h : item.Takes us a (Clear stop)) (hs : TakesAll item stop ts as)
    (hlt : as.length < budget) :
    (items item budget).Takes (us ++ ts) (a :: as) (Clear (MoreItems stop)) :=
  Takes.bind h ((itemsAfterComma_takes hcomma hs hlt).map (a :: ·)) fun _ hrest =>
    hs.clear hcomma hrest

theorem parenthesized_nil {tok : Token} (htok : tok.kind = .symbol .rightParen) (budget : Nat) :
    (parenthesized item budget).Takes [tok] [] anyRest :=
  .ask_true (List.mem_singleton.mpr htok)
    ((takes_expect (.symbol .rightParen) htok).map fun _ => [])

theorem parenthesized_takes {us : List Token} {as : List α} {tok last : Token} {budget : Nat}
    (h : (items item budget).Takes (tok :: us) as (Clear (MoreItems stop)))
    (htok : tok.kind ≠ .symbol .rightParen) (hlast : last.kind = .symbol .rightParen)
    (hstop : ¬ stop (.symbol .rightParen)) :
    (parenthesized item budget).Takes (tok :: us ++ [last]) as anyRest := by
  have hnext : ((items item budget).bind fun as =>
      (expect (.symbol .rightParen) (.symbol .rightParen)).bind fun _ => done as).Takes
      (tok :: us ++ [last]) as anyRest := by
    refine Takes.bind h ((takes_expect (.symbol .rightParen) hlast).map fun _ => as)
      fun rest _ => ?_
    refine .cons ?_ _
    rw [hlast]
    rintro (h | h)
    · exact hstop h
    · cases h
  exact .ask_false (mt List.mem_singleton.mp htok) hnext

end

/-! ### Paths -/

variable {index operand : Script Expr} {tok last : Token} {us : List Token}
  {stop : List Token → Prop}

theorem pathStep_decimal (expected : Expectation) (htok : tok.kind = .decimal) :
    (pathStep expected).Takes [tok] (.decNumber tok.text) anyRest :=
  .accept (List.mem_singleton.mpr htok) (.refl _ _)

/-- A token of another kind than the one accepted. -/
theorem not_mem_singleton {k k' : Token.Kind} (h : tok.kind = k) (hne : k ≠ k') :
    tok.kind ∉ [k'] := by
  rw [h, List.mem_singleton]
  exact hne

theorem pathStep_hex (expected : Expectation) (htok : tok.kind = .hex) :
    (pathStep expected).Takes [tok] (.hexNumber tok.text) anyRest :=
  .skip (not_mem_singleton htok (by decide)) (.accept (List.mem_singleton.mpr htok) (.refl _ _))

theorem pathStep_word (expected : Expectation) (htok : tok.kind = .word) :
    (pathStep expected).Takes [tok] (.name tok.text) anyRest :=
  .skip (not_mem_singleton htok (by decide)) (.skip (not_mem_singleton htok (by decide))
    ((takes_expect expected htok).map fun word => Variable.name word.text))

theorem pathStart_word (htok : tok.kind = .word) :
    pathStart.Takes [tok] (.name tok.text) anyRest :=
  .skip (not_mem_singleton htok (by decide))
    ((takes_expect .variableName htok).map fun word => Variable.name word.text)

theorem pathStart_dollar {v : Variable} (htok : tok.kind = .symbol .dollar)
    (h : (pathStep .variableName).Takes us v anyRest) : pathStart.Takes (tok :: us) v anyRest :=
  .accept (List.mem_singleton.mpr htok) h

theorem pathFrom_dot (budget : Nat) (parent : Variable) {child : Variable}
    (htok : tok.kind = .symbol .dot) (h : (pathStep .nameAfterDot).Takes us child anyRest) :
    (pathFrom index (budget + 1) parent).Passes (tok :: us)
      (pathFrom index budget (.descend parent child)) anyRest :=
  .accept (List.mem_singleton.mpr htok) (.bind h)

theorem pathFrom_index (budget : Nat) (parent : Variable) {e : Expr}
    (htok : tok.kind = .symbol .leftBracket) (hlast : last.kind = .symbol .rightBracket)
    (h : index.Takes us e stop) (hstop : ∀ rest, stop (last :: rest)) :
    (pathFrom index (budget + 1) parent).Passes (tok :: us ++ [last])
      (pathFrom index budget (.expand parent e)) anyRest :=
  .skip (not_mem_singleton htok (by decide)) (.accept (List.mem_singleton.mpr htok)
    (Takes.bind h (.bind (takes_expect (.symbol .rightBracket) hlast)) fun rest _ => hstop rest))

theorem pathFrom_end (budget : Nat) (parent : Variable) :
    (pathFrom index (budget + 1) parent).Takes [] parent (Clear Token.Kind.MorePath) :=
  .skip_rest (fun _ h => h.weaken fun _ hk => .inl (List.mem_singleton.mp hk))
    (.skip_rest (fun _ h => h.weaken fun _ hk => .inr (List.mem_singleton.mp hk)) (.refl _ _))

/-! ### Chains of operators -/

theorem chainFrom_more {level : BinaryLevel} {op : BinaryOp} (budget : Nat) (left : Expr)
    {right : Expr} (htok : level.operator? tok.kind = some op) (h : operand.Takes us right stop) :
    (chainFrom level operand (budget + 1) left).Passes (tok :: us)
      (chainFrom level operand budget (.binary op left right)) stop := by
  refine .peek ?_
  rw [htok]
  exact .advance (Passes.bind h)

theorem chainFrom_end (level : BinaryLevel) (budget : Nat) (left : Expr) :
    (chainFrom level operand (budget + 1) left).Takes [] left
      (Clear fun k => level.operator? k ≠ none) := by
  rintro _ ⟨tok, ts, rfl, htok⟩
  refine (feed_peek _ tok ts).trans ?_
  rw [Classical.not_not.mp htok]
  rfl

/-! ### Values -/

theorem numeral_decimal (sign : Option Token) (htok : tok.kind = .decimal) :
    (numeral sign).Takes [tok] (signed sign (.decimal tok.text)) anyRest :=
  .accept (List.mem_singleton.mpr htok) (.refl _ _)

theorem numeral_hex (sign : Option Token) (htok : tok.kind = .hex) :
    (numeral sign).Takes [tok] (signed sign (.hex tok.text)) anyRest :=
  .skip (not_mem_singleton htok (by decide)) (.accept (List.mem_singleton.mpr htok) (.refl _ _))

theorem reference_lookup {v : Variable} {budget : Nat}
    (h : (path index budget).Takes us v (Clear Token.Kind.MorePath)) :
    (reference index budget).Takes us (.lookup v) (Clear (Token.Kind.Extends [])) := by
  rw [← List.append_nil us]
  refine Takes.bind h (.skip_rest (fun _ h => ?_) (.refl _ _)) fun rest hrest => ?_
  · exact h.weaken fun _ hk => .inr (.inl (List.mem_singleton.mp hk))
  · exact Clear.weaken hrest fun _ hk => .inl hk

theorem reference_apply {v : Variable} {vs : List Token} {es : List Expr} {budget : Nat}
    (h : (path index budget).Takes us v (Clear Token.Kind.MorePath))
    (htok : tok.kind = .symbol .leftParen)
    (hes : (parenthesized index budget).Takes vs es anyRest) :
    (reference index budget).Takes (us ++ tok :: vs) (.apply v es) anyRest := by
  refine Takes.bind h (.accept (List.mem_singleton.mpr htok) (hes.map (Expr.apply v)))
    fun rest _ => .cons ?_ _
  rw [htok]
  rintro (h | h) <;> cases h

variable {budget : Nat}

/-- What an expression between brackets or parentheses of a value is read with. -/
abbrev nested (budget : Nat) : Script Expr := chained (value budget) budget levels

/-- Where a word or a dollar sign stands, a value is a reference. -/
theorem feed_value_reference (htok : tok.kind = .word ∨ tok.kind = .symbol .dollar)
    (ts : List Token) :
    (value (budget + 1)).feed (tok :: ts) = (reference (nested budget) budget).feed (tok :: ts) := by
  unfold value
  refine (feed_look _ tok ts).trans ?_
  rcases htok with htok | htok
  · simp only [bind, htok]
    rfl
  · simp only [bind, htok]
    rfl

theorem value_reference {s : Script Expr} (htok : tok.kind = .word ∨ tok.kind = .symbol .dollar)
    (h : (reference (nested budget) budget).Passes (tok :: us) s stop) :
    (value (budget + 1)).Passes (tok :: us) s stop :=
  fun rest hrest => (feed_value_reference htok (us ++ rest)).trans (h rest hrest)

theorem value_string (htok : tok.kind = .string) :
    (value (budget + 1)).Takes [tok] (.string (unquoted tok.text)) anyRest := by
  unfold value
  refine .look ?_
  simp only [bind, htok]
  exact .advance (.refl _ _)

theorem value_number (htok : tok.kind ∈ [.decimal, .hex, .symbol .plus, .symbol .minus]) {e : Expr}
    (h : number.Takes (tok :: us) e stop) : (value (budget + 1)).Takes (tok :: us) e stop := by
  unfold value
  refine .look ?_
  simp only [List.mem_cons, List.not_mem_nil, or_false] at htok
  rcases htok with htok | htok | htok | htok
  all_goals
    simp only [bind, htok]
    exact h

/-- A number with or without a sign. -/
theorem number_unsigned (htok : tok.kind = .decimal ∨ tok.kind = .hex) {e : Expr}
    (h : (numeral none).Takes (tok :: us) e stop) : number.Takes (tok :: us) e stop :=
  .skip (by rcases htok with h | h <;> simp [h]) h

theorem number_signed (htok : tok.kind = .symbol .plus ∨ tok.kind = .symbol .minus) {e : Expr}
    (h : (numeral (some tok)).Takes us e stop) : number.Takes (tok :: us) e stop :=
  .accept (by simpa using htok) h

/-- The operator that a sign before a value stands for. -/
def prefixOp? : Symbol → Option UnaryOp
  | .hash => some .numeric
  | .bang => some .not
  | .question => some .exist
  | _ => none

theorem value_prefixed {s : Symbol} {op : UnaryOp} (hs : prefixOp? s = some op)
    (htok : tok.kind = .symbol s) {e : Expr} (h : (value budget).Takes us e stop) :
    (value (budget + 1)).Takes (tok :: us) (.unary op e) stop := by
  unfold value
  refine .look ?_
  cases s <;> cases hs
  all_goals
    simp only [bind, htok]
    exact .advance (Takes.map h _)

theorem value_group {es : List Expr} (htok : tok.kind = .symbol .leftParen)
    (hlast : last.kind = .symbol .rightParen) (h : (items (nested budget) budget).Takes us es stop)
    (hstop : ∀ rest, stop (last :: rest)) :
    (value (budget + 1)).Takes (tok :: us ++ [last]) (grouped es) anyRest := by
  unfold value
  refine .look ?_
  simp only [bind, htok]
  exact .advance (Takes.bind h ((takes_expect _ hlast).map fun _ => grouped es)
    fun rest _ => hstop rest)

end Script
end ClearSilver
