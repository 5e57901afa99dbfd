/-
# The scripts of expressions go the same way

A tree keeps the texts of some tokens and nothing of the others, so scripts of
expressions that are fed with tokens of the same kinds, of which a tree keeps
the same (`SameKept`), give the same trees. The second script may have the
greater budget.

Key definitions: `SameKept`.
Key theorems: `Script.value_alike`, `Script.expression_alike`,
`Script.variablePath_alike`.
-/
import ClearSilver.Proofs.Parser.ExpressionReads
import ClearSilver.Proofs.Script.Alike
import ClearSilver.Tree.Lexemes

namespace ClearSilver

/-- Are related tokens of one kind, and does a tree keep the same of them? -/
structure SameKept (R : Token → Token → Prop) : Prop where
  kinds : SameKinds R
  texts : ∀ t t', R t t' → t.keptText? = t'.keptText?

namespace SameKept

variable {R : Token → Token → Prop} {t t' : Token}

/-- What is kept as it is. -/
theorem text_eq (hR : SameKept R) (h : R t t')
    (hk : t.kind ∈ [.data, .comment, .word, .decimal, .hex]) : t.text = t'.text := by
  have hkept := hR.texts t t' h
  have hkind := hR.kinds t t' h
  simp only [List.mem_cons, List.not_mem_nil, or_false] at hk
  rcases hk with hk | hk | hk | hk | hk <;>
    simpa [Token.keptText?, hk, hkind ▸ hk] using hkept

theorem unquoted_eq (hR : SameKept R) (h : R t t') (hk : t.kind = .string) :
    unquoted t.text = unquoted t'.text := by
  have hkept := hR.texts t t' h
  simpa [Token.keptText?, hk, hR.kinds t t' h ▸ hk] using hkept

end SameKept

namespace Script

variable {R : Token → Token → Prop}

/-- Of a sign its kind is all that counts. -/
theorem signed_congr {sign sign' : Option Token}
    (h : sign.map (·.kind) = sign'.map (·.kind)) (e : Expr) : signed sign e = signed sign' e := by
  unfold signed
  cases sign <;> cases sign' <;> simp_all

theorem prefixed_alike {v v' : Script Expr} (hv : Alike R Eq v v') (op : UnaryOp) :
    Alike R Eq (prefixed op v) (prefixed op v') :=
  .advance_then fun _ _ _ => hv.map_same

variable (hR : SameKept R)
include hR

/-! ### Lists and chains -/

section

variable {α : Type} {item item' : Script α} (hi : Alike R Eq item item')
include hi

theorem itemsAfterComma_alike : ∀ {budget budget' : Nat}, budget ≤ budget' →
    Alike R Eq (itemsAfterComma item budget) (itemsAfterComma item' budget')
  | 0, _, _ => .exhausted _
  | budget + 1, budget' + 1, hle => by
    unfold itemsAfterComma
    refine .accept hR.kinds (fun _ _ _ _ => .bind_same hi fun a => ?_) (.done rfl)
    exact (itemsAfterComma_alike (Nat.le_of_succ_le_succ hle)).map_same

theorem items_alike {budget budget' : Nat} (hle : budget ≤ budget') :
    Alike R Eq (items item budget) (items item' budget') :=
  .bind_same hi fun _ => (itemsAfterComma_alike hR hi hle).map_same

theorem parenthesized_alike {budget budget' : Nat} (hle : budget ≤ budget') :
    Alike R Eq (parenthesized item budget) (parenthesized item' budget') := by
  have hend : ∀ as : List α, Alike R Eq
      ((expect (.symbol .rightParen) (.symbol .rightParen)).bind fun _ => done as)
      ((expect (.symbol .rightParen) (.symbol .rightParen)).bind fun _ => done as) :=
    fun as => (Alike.expect hR.kinds _ (.same _)).map fun _ _ _ => rfl
  refine .ask hR.kinds fun b => ?_
  cases b with
  | true => exact hend []
  | false => exact .bind_same (items_alike hR hi hle) hend

end

theorem chainFrom_alike {level : BinaryLevel} {operand operand' : Script Expr}
    (hop : Alike R Eq operand operand') : ∀ {budget budget' : Nat} (left : Expr),
      budget ≤ budget' →
        Alike R Eq (chainFrom level operand budget left) (chainFrom level operand' budget' left)
  | 0, _, _, _ => .exhausted _
  | budget + 1, budget' + 1, left, hle => by
    unfold chainFrom
    refine .peek (fun t t' ht => ?_) 0
    rw [← hR.kinds t t' ht]
    cases level.operator? t.kind with
    | none => exact .done rfl
    | some op =>
      refine .advance_then fun _ _ _ => .bind_same hop fun right => ?_
      exact chainFrom_alike hop _ (Nat.le_of_succ_le_succ hle)

theorem chained_alike {v v' : Script Expr} (hv : Alike R Eq v v') {budget budget' : Nat}
    (hle : budget ≤ budget') :
    ∀ ls : List BinaryLevel, Alike R Eq (chained v budget ls) (chained v' budget' ls)
  | [] => hv
  | _ :: ls => .bind_same (chained_alike hv hle ls) fun first =>
    chainFrom_alike hR (chained_alike hv hle ls) first hle

/-! ### Variables -/

theorem pathStep_alike (expected : Expectation) :
    Alike R Eq (pathStep expected) (pathStep expected) := by
  unfold pathStep
  refine .accept hR.kinds (fun t t' ht hk => .done ?_) ?_
  · rw [hR.text_eq ht (by simp_all)]
  refine .accept hR.kinds (fun t t' ht hk => .done ?_) ?_
  · rw [hR.text_eq ht (by simp_all)]
  refine (Alike.expect hR.kinds _ (.same _)).map fun t t' ht => ?_
  rw [hR.text_eq ht.1 (by simp [ht.2])]

theorem pathStart_alike : Alike R Eq pathStart pathStart := by
  unfold pathStart
  refine .accept hR.kinds (fun _ _ _ _ => pathStep_alike hR _) ?_
  refine (Alike.expect hR.kinds _ (.same _)).map fun t t' ht => ?_
  rw [hR.text_eq ht.1 (by simp [ht.2])]

theorem pathFrom_alike {index index' : Script Expr} (hi : Alike R Eq index index') :
    ∀ {budget budget' : Nat} (parent : Variable), budget ≤ budget' →
      Alike R Eq (pathFrom index budget parent) (pathFrom index' budget' parent)
  | 0, _, _, _ => .exhausted _
  | budget + 1, budget' + 1, parent, hle => by
    have ih := fun parent => pathFrom_alike hi parent (Nat.le_of_succ_le_succ hle)
    unfold pathFrom
    refine .accept hR.kinds (fun _ _ _ _ => ?_) (.accept hR.kinds (fun _ _ _ _ => ?_) (.done rfl))
    · exact .bind_same (pathStep_alike hR _) fun child => ih _
    · refine .bind_same hi fun found => .bind (.expect hR.kinds _ (.same _)) fun _ _ _ => ih _

theorem path_alike {index index' : Script Expr} (hi : Alike R Eq index index')
    {budget budget' : Nat} (hle : budget ≤ budget') :
    Alike R Eq (path index budget) (path index' budget') :=
  .bind_same (pathStart_alike hR) fun first => pathFrom_alike hR hi first hle

/-! ### Values -/

theorem numeral_alike {sign sign' : Option Token} (h : sign.map (·.kind) = sign'.map (·.kind)) :
    Alike R Eq (numeral sign) (numeral sign') := by
  unfold numeral
  refine .accept hR.kinds (fun t t' ht hk => .done ?_) ?_
  · rw [hR.text_eq ht (by simp_all), signed_congr h]
  refine .accept hR.kinds (fun t t' ht hk => .done ?_) ?_
  · rw [hR.text_eq ht (by simp_all), signed_congr h]
  exact .peek (fun t t' ht => .reject (.same _) ht) 0

theorem number_alike : Alike R Eq number number := by
  rw [number_eq]
  refine .accept hR.kinds (fun t t' ht _ => numeral_alike hR ?_) (numeral_alike hR rfl)
  exact congrArg some (hR.kinds t t' ht)

theorem reference_alike {index index' : Script Expr} (hi : Alike R Eq index index')
    {budget budget' : Nat} (hle : budget ≤ budget') :
    Alike R Eq (reference index budget) (reference index' budget') := by
  unfold reference
  refine .bind_same (path_alike hR hi hle) fun called => ?_
  exact .accept hR.kinds (fun _ _ _ _ => (parenthesized_alike hR hi hle).map_same) (.done rfl)

/-- **Values are alike** on tokens of which a tree keeps the same. -/
theorem value_alike : ∀ {budget budget' : Nat}, budget ≤ budget' →
    Alike R Eq (value budget) (value budget')
  | 0, _, _ => .exhausted _
  | budget + 1, budget' + 1, hle => by
    have hle := Nat.le_of_succ_le_succ hle
    have ih : Alike R Eq (value budget) (value budget') := value_alike hle
    have hn := chained_alike hR ih hle levels
    have hreference := reference_alike hR hn hle
    unfold value
    refine .look (fun t t' ht => ?_) 0
    have hkind := hR.kinds t t' ht
    simp only [bind]
    rw [← hkind]
    split
    · exact hreference
    · exact hreference
    · refine .advance_then fun _ _ _ => .done ?_
      rw [hR.unquoted_eq ht ‹_›]
    · exact number_alike hR
    · exact number_alike hR
    · exact number_alike hR
    · exact number_alike hR
    · exact prefixed_alike ih .numeric
    · exact prefixed_alike ih .not
    · exact prefixed_alike ih .exist
    · refine .advance_then fun _ _ _ => .bind_same (items_alike hR hn hle) fun es => ?_
      exact (Alike.expect hR.kinds _ (.same _)).map fun _ _ _ => rfl
    · exact .reject (.same _) ht

/-- Expressions are alike on tokens of which a tree keeps the same. -/
theorem expression_alike {budget budget' : Nat} (hle : budget ≤ budget') :
    Alike R Eq (expression budget) (expression budget') :=
  chained_alike hR (value_alike hR hle) hle levels

/-- Variables are alike on tokens of which a tree keeps the same. -/
theorem variablePath_alike {budget budget' : Nat} (hle : budget ≤ budget') :
    Alike R Eq (variablePath budget) (variablePath budget') :=
  path_alike hR (expression_alike hR hle) hle

end Script
end ClearSilver
