/-
# Operands with operators between them

A text that is read alone as one value can be an operand of any operators. Its
lexemes are the same before a blank (`OperandText.within`), and tokens with
them are taken as that value whatever the operators around it. So operands and
operators with blanks between them are the tokens of a chain of operations, and
the tree is the one that is split at the last of the loosest operators
(`parseExpression_operators`).

Key definitions: `valueRun`, `OperationText`, `OperandText`, `OperationsText`.
Key theorems: `exists_operandText`, `OperationsText.of_reads`,
`parseExpression_operators`.
-/
import ClearSilver.Proofs.Parse.EntryPoints
import ClearSilver.Proofs.Parser.Precedence
import ClearSilver.Proofs.Written.ExpressionTaken

namespace ClearSilver

open Script

variable {t t' b b' name : Text} {ls ls' : List Lexeme} {e e' : Expr} {ops : List Operation}

/-! ### A value is an expression -/

namespace Form

theorem level_within {n : Nat} (h : n < operators.length) :
    (phrase (.level (n + 1))).Within (phrase (.level n)) := by
  intro ks hks
  have hboth := Derives.both hks (Derives.none (f := both
    (anyOf (symbol operators[n].1) (operators[n].2.map symbol)) (phrase (.level (n + 1)))))
  rw [List.append_nil] at hboth
  refine .phrase ?_
  rw [Phrase.form, List.getElem?_eq_getElem h]
  exact hboth

theorem level_within_looser {m n : Nat} (hle : m ≤ n) (hn : n ≤ operators.length) :
    (phrase (.level n)).Within (phrase (.level m)) := by
  induction hle with
  | refl => exact .refl _
  | step _ ih => exact (level_within hn).trans (ih (Nat.le_of_succ_le hn))

theorem value_within_expression : (phrase .value).Within expression := by
  have htightest : (phrase .value).Within (phrase (.level 6)) := within_phrase (.level 6)
  exact htightest.trans (level_within_looser (Nat.zero_le 6) (by decide))

end Form

/-- The run of a value and nothing after it over a source. -/
def valueRun (source : Text) : Run Scanner Expr :=
  (upToEnd (value (budgetFor source))).run (.start (.start source .arguments))

/-! ### Operands -/

/-- A text with blanks at its end, and the lexemes of the arguments that are
taken for the value. -/
structure OperandText (t : Text) (ls : List Lexeme) (e : Expr) : Prop where
  lexes : ∃ r, Lexes .arguments t ls .arguments r ∧ r.all isBlank = true
  run : Stage.begun.run (ls.map Prod.fst) = some .arguments
  taken : ∀ {ts : List Token} {budget : Nat}, ts.map Token.lexeme = ls → ts.length < budget →
    (value budget).Takes ts e (Clear (Token.Kind.Extends []))

/-- **A text that is read alone as a value** is an operand. -/
theorem exists_operandText (h : (valueRun t).outcome = .ok e) : ∃ ls, OperandText t ls e := by
  have hwithin : ∀ {us : List Token}, (Form.phrase .value).Matches us →
      Form.expression.Matches us := fun hm => Form.value_within_expression _ hm
  obtain ⟨us, s, last, hp, hm, hn, htakes⟩ := upToEnd_run_ok (value_reads _) (value_takes _)
    (by decide) (fun hm => (hwithin hm).leads.eof_not_mem_expression) h
  have hne := ne_eof_of_not_mem (hwithin hm).leads.eof_not_mem_expression
  have hlexes : Lexes Stage.begun.mode t _ _ _ := (hp.lexes hne).2
  have hrun := run_of_matches (hwithin hm)
  rw [Stage.mode_of_run hlexes hrun] at hlexes
  exact ⟨us.map Token.lexeme, ⟨s.rest, hlexes, (Scanner.skips_of_next hn rfl).1⟩, hrun,
    fun hts hlt => Completes.of_lexemes value_takes value_alike (by decide) hm htakes hts.symm hlt⟩

/-- An operand is read as its lexemes within a longer text. -/
theorem OperandText.within (h : OperandText t ls e) : ReadWithin t ls := by
  obtain ⟨r, hlexes, hr⟩ := h.lexes
  exact hlexes.within hr h.run

/-! ### Operations -/

/-- An operator with its right operand as it is written, with what stands around
the operator. -/
structure OperationText where
  before : Text
  op : BinaryOp
  after : Text
  operand : Text

namespace OperationText

def written (o : OperationText) : Text := o.before ++ (o.op.sign ++ (o.after ++ o.operand))

/-- Does the text say the operation: an operator with a symbol, blanks on both
sides of it, and an operand that is read alone as the value? -/
structure Reads (o : OperationText) (p : Operation) : Prop where
  op : o.op = p.1
  symbol : o.op.symbol?.isSome = true
  before : o.before.all isBlank = true ∧ o.before ≠ []
  after : o.after.all isBlank = true ∧ o.after ≠ []
  operand : (valueRun o.operand).outcome = .ok p.2

end OperationText

/-- A text with blanks at its end, and the lexemes of the arguments that are
taken for a value and operations. -/
structure OperationsText (t : Text) (ls : List Lexeme) (e : Expr) (ops : List Operation) :
    Prop where
  lexes : ∃ r, Lexes .arguments t ls .arguments r ∧ r.all isBlank = true
  nonempty : ls ≠ []
  taken : ∀ {ts : List Token} {budget : Nat}, ts.map Token.lexeme = ls → ts.length < budget →
    ∃ us vs, ts = us ++ vs ∧ (value budget).Takes us e (Clear (Token.Kind.Extends [])) ∧
      TakesOperations (value budget) vs ops

theorem OperandText.ne_nil (h : OperandText t ls e) : ls ≠ [] := by
  rintro rfl
  cases h.run

theorem OperandText.alone (h : OperandText t ls e) : OperationsText t ls e [] where
  lexes := h.lexes
  nonempty := h.ne_nil
  taken {ts _} hts hlt := ⟨ts, [], (List.append_nil ts).symm, h.taken hts hlt, .nil⟩

/-- An operand with an operator behind it, in front of another operand with its
own operations. -/
theorem OperandText.more {op : BinaryOp} {s : Symbol} (h : OperandText t ls e)
    (hs : op.symbol? = some s) (hb : b.all isBlank = true) (hne : b ≠ [])
    (hb' : b'.all isBlank = true) (hne' : b' ≠ []) (hmore : OperationsText t' ls' e' ops) :
    OperationsText (t ++ (b ++ (op.sign ++ (b' ++ t')))) (ls ++ Lexeme.symbol s :: ls') e
      ((op, e') :: ops) where
  lexes := by
    obtain ⟨r, hmoreLexes, hr⟩ := hmore.lexes
    have hbehind := hmoreLexes.skip (b := b') ⟨hb', by simp⟩ fun hnil => absurd hnil hmore.nonempty
    have hsign := lexes_symbol ((Text.EndsArguments.of_blanks hb' hne' t').2 s) hbehind
    obtain ⟨r', hr', hfront⟩ := h.within _ (.of_blanks hb hne (op.sign ++ (b' ++ t')))
    have hblanks : (r' ++ b).all isBlank = true := by rw [List.all_append, hr', hb]; rfl
    rw [← List.append_assoc r'] at hfront
    have htext : op.sign = s.text := by rw [BinaryOp.sign, hs]; rfl
    rw [← htext] at hsign
    exact ⟨r, hfront.append (hsign.skip ⟨hblanks, by simp⟩ (by simp)), hr⟩
  nonempty := by simp
  taken {ts budget} hts hlt := by
    obtain ⟨us, ws, rfl, hus, hws⟩ := List.map_eq_append_iff.mp hts
    obtain ⟨tok, ws, rfl, htok, -, hws⟩ := map_lexeme_cons hws
    simp only [List.length_append, List.length_cons] at hlt
    obtain ⟨xs, ys, rfl, hvalue, hops⟩ := hmore.taken hws (show ws.length < budget by omega)
    exact ⟨us, tok :: (xs ++ ys), rfl, h.taken hus (by omega), .cons hs htok hvalue hops⟩

/-- **Operands that are read alone**, with operators between them. -/
theorem OperationsText.of_reads : ∀ {os : List OperationText} {ops : List Operation} {t : Text}
    {e : Expr}, (valueRun t).outcome = .ok e → List.Forall₂ OperationText.Reads os ops →
      ∃ ls, OperationsText (t ++ os.flatMap OperationText.written) ls e ops
  | [], _, t, e, h, .nil => by
    obtain ⟨ls, hoperand⟩ := exists_operandText h
    rw [List.flatMap_nil, List.append_nil]
    exact ⟨ls, hoperand.alone⟩
  | o :: os, (op, e') :: _, t, e, h, .cons ho hos => by
    obtain ⟨ls, hoperand⟩ := exists_operandText h
    obtain ⟨ls', hmore⟩ := OperationsText.of_reads ho.operand hos
    obtain ⟨s, hs⟩ := Option.isSome_iff_exists.mp ho.symbol
    rw [List.flatMap_cons, OperationText.written, List.append_assoc, List.append_assoc,
      List.append_assoc, ho.op]
    rw [ho.op] at hs
    exact ⟨_, hoperand.more hs ho.before.1 ho.before.2 ho.after.1 ho.after.2 hmore⟩

/-- **Binary operators follow the precedence table** and group from the left.
Operands that are each read alone as a value, with operators and blanks between
them, parse to the one tree that is split at the last of the loosest operators,
and so again on both of its sides. -/
theorem parseExpression_operators {first : Text} {os : List OperationText}
    (h : (valueRun first).outcome = .ok e) (hos : List.Forall₂ OperationText.Reads os ops)
    (name : Text) :
    ∃ tree, parseExpression (first ++ os.flatMap OperationText.written) name = .ok tree ∧
      ∀ tree', SplitsTo e ops tree' ↔ tree' = tree := by
  obtain ⟨ls, htext⟩ := OperationsText.of_reads h hos
  obtain ⟨r, hlexes, hr⟩ := htext.lexes
  obtain ⟨ts, pos, hp, hts, hrest⟩ := hlexes.pulls _ 0 rfl
  have hend := Scanner.next_of_blanks (s := ⟨_, pos, .arguments⟩) rfl (hrest ▸ hr)
  have hlen := hlexes.length_le
  rw [← hts, List.length_map] at hlen
  have hlt : ts.length < budgetFor (first ++ os.flatMap OperationText.written) := by
    rw [budgetFor]
    omega
  obtain ⟨us, vs, rfl, hvalue, hops⟩ := htext.taken hts hlt
  have hle := hops.length_le
  rw [List.length_append] at hlt
  obtain ⟨tree, htree, hsplits⟩ := expression_splits hvalue hops (by omega)
  refine ⟨tree, parseExpression_of_takes hp hend htree name, fun tree' => ⟨fun h => ?_, ?_⟩⟩
  · exact h.unique hsplits
  · rintro rfl
    exact hsplits

/-- Signs, levels and operators of one level: the last `-` is applied last. -/
theorem parseExpression_operators_signed : ∃ tree,
    (valueRun "1").outcome = .ok (.decimal "1") ∧
    parseExpression "1 - -2 * #a - 3 % !b" [] = .ok tree ∧
    ∀ tree', SplitsTo (.decimal "1")
      [(.subtract, .unary .negative (.decimal "2")),
       (.multiply, .unary .numeric (.lookup (.name "a"))), (.subtract, .decimal "3"),
       (.modulo, .unary .not (.lookup (.name "b")))] tree' ↔ tree' = tree := by
  have hone : (valueRun "1").outcome = .ok (.decimal "1") := rfl
  have hos : List.Forall₂ OperationText.Reads
      [⟨" ", .subtract, " ", "-2"⟩, ⟨" ", .multiply, " ", "#a"⟩, ⟨" ", .subtract, " ", "3"⟩,
        ⟨" ", .modulo, " ", "!b"⟩]
      [(.subtract, .unary .negative (.decimal "2")),
        (.multiply, .unary .numeric (.lookup (.name "a"))), (.subtract, .decimal "3"),
        (.modulo, .unary .not (.lookup (.name "b")))] :=
    .cons ⟨rfl, rfl, ⟨rfl, by simp⟩, ⟨rfl, by simp⟩, rfl⟩ <|
      .cons ⟨rfl, rfl, ⟨rfl, by simp⟩, ⟨rfl, by simp⟩, rfl⟩ <|
      .cons ⟨rfl, rfl, ⟨rfl, by simp⟩, ⟨rfl, by simp⟩, rfl⟩ <|
      .cons ⟨rfl, rfl, ⟨rfl, by simp⟩, ⟨rfl, by simp⟩, rfl⟩ .nil
  obtain ⟨tree, htree, hsplits⟩ := parseExpression_operators hone hos []
  exact ⟨tree, hone, htree, hsplits⟩

end ClearSilver
