/-
# What the scripts of expressions read

Each script of an expression reads its form of the grammar and gives a
canonical tree, whatever the tokens are. A value reads by induction on its
budget, since what stands between its parentheses and brackets is read with
less; the chains of operators read their levels from the tightest up.

Key theorems: `Script.path_reads`, `Script.value_reads`, `Script.expression_reads`.
-/
import ClearSilver.Parser.Expression
import ClearSilver.Proofs.Script.Reads
import ClearSilver.Proofs.Tree.Canonical

namespace ClearSilver

/-! ### Texts of proper tokens -/

namespace Token.IsProper

variable {tok : Token}

theorem decimal (h : tok.IsProper) (hk : tok.kind = .decimal) : isDecimalWord tok.text = true := by
  obtain ⟨mode, hx, -⟩ := h
  rw [hk] at hx
  cases mode <;> first | exact hx | exact hx.elim

theorem hex (h : tok.IsProper) (hk : tok.kind = .hex) : isHexWord tok.text = true := by
  obtain ⟨mode, hx, -⟩ := h
  rw [hk] at hx
  cases mode <;> first | exact hx | exact hx.elim

theorem word (h : tok.IsProper) (hk : tok.kind = .word) : isPlainWord tok.text = true := by
  obtain ⟨mode, hx, hm⟩ := h
  rw [hm hk, hk] at hx
  exact hx

theorem data (h : tok.IsProper) (hk : tok.kind = .data) :
    tok.text ≠ [] ∧ tok.text.occurs opensTag = false := by
  obtain ⟨mode, hx, -⟩ := h
  rw [hk] at hx
  cases mode <;> first | exact hx | exact hx.elim

theorem comment (h : tok.IsProper) (hk : tok.kind = .comment) :
    tok.text ≠ [] ∧ tok.text.occurs closesTag = false := by
  obtain ⟨mode, hx, -⟩ := h
  rw [hk] at hx
  cases mode <;> first | exact hx | exact hx.elim

/-- A string lacks the quotes it stands between. -/
theorem string (h : tok.IsProper) (hk : tok.kind = .string) :
    isQuotable (unquoted tok.text) = true := by
  obtain ⟨mode, hx, -⟩ := h
  rw [hk] at hx
  cases mode <;> try exact hx.elim
  obtain ⟨q, w, hq, hw, hx⟩ := hx
  have hu : unquoted tok.text = w := by
    rw [hx, unquoted, List.cons_append, List.tail_cons, List.dropLast_concat]
  rw [hu, isQuotable, Bool.or_eq_true]
  rcases hq with rfl | rfl
  · exact .inl (by simpa using hw)
  · exact .inr (by simpa using hw)

end Token.IsProper

/-- What can come behind a path: a name after a dot, or an index. -/
def Form.pathMore : Form :=
  either (both (symbol .dot) (phrase .name))
    (sequence [symbol .leftBracket, expression, symbol .rightBracket])

namespace Script

open Form

/-! ### Lists -/

variable {α : Type} {item : Script α} {f : Form} {P : α → Prop}

theorem itemsAfterComma_reads (hi : item.Reads f fun _ a => P a) : ∀ budget : Nat,
    (itemsAfterComma item budget).Reads (many (both (symbol .comma) f))
      fun _ as => ∀ a ∈ as, P a
  | 0 => .exhausted
  | budget + 1 => by
    unfold itemsAfterComma
    refine .accept (leads_nil rfl) (fun tok htok => ?_) ?_
    · obtain htok : tok.kind = .symbol .comma := by simpa using htok
      refine ⟨both f (many (both (symbol .comma) f)), .bind hi (leads_nil rfl) fun a => ?_, ?_⟩
      · refine (itemsAfterComma_reads hi budget).map fun _ as _ has _ ha _ _ => ?_
        exact List.forall_mem_cons.mpr ⟨ha, has⟩
      · rw [htok]
        exact (assoc_within _ _ _).trans (within_many_more _)
    · exact (Reads.done (by simp)).within (within_many_none _)

theorem items_reads (hi : item.Reads f fun _ a => P a) (budget : Nat) :
    (items item budget).Reads (separated f) fun _ as => as ≠ [] ∧ ∀ a ∈ as, P a := by
  unfold items
  refine .bind hi (leads_nil rfl) fun a => ?_
  refine (itemsAfterComma_reads hi budget).map fun _ as _ has _ ha _ => ?_
  exact ⟨List.cons_ne_nil _ _, List.forall_mem_cons.mpr ⟨ha, has⟩⟩

theorem parenthesized_reads (hi : item.Reads f fun _ a => P a) (budget : Nat) :
    (parenthesized item budget).Reads (both (optional (separated f)) (symbol .rightParen))
      fun _ as => ∀ a ∈ as, P a := by
  unfold parenthesized
  refine .ask ((leads_optional _).both (leads_nil rfl)) ?_ ?_
  · exact ((Reads.expect _ rfl).map fun _ _ _ _ => by simp).within (within_behind_optional _ _)
  · refine (Reads.bind (items_reads hi budget) (leads_nil rfl) fun as => ?_).within
      ((within_left _ _).both (.refl _))
    exact (Reads.expect _ rfl).map fun _ _ _ _ _ has _ => has.2

/-! ### Chains of operators -/

variable {operand index v : Script Expr} {o : Form}

theorem chainFrom_reads {level : BinaryLevel}
    (ho : ∀ kind op, level.operator? kind = some op →
      op.symbol?.isSome = true ∧ (token kind).Within o)
    (hop : operand.Reads f fun _ e => e.Canonical) : ∀ (budget : Nat) (left : Expr),
    (chainFrom level operand budget left).Reads (many (both o f))
      fun _ e => left.Canonical → e.Canonical
  | 0, _ => .exhausted
  | budget + 1, left => by
    unfold chainFrom
    refine .peek (leads_nil rfl) fun tok => ?_
    cases hk : level.operator? tok.kind with
    | none => exact ((Reads.done fun h => h).within (within_many_none _)).at_token
    | some op =>
      obtain ⟨hop', htok⟩ := ho _ op hk
      refine .advance (f := both f (many (both o f))) ?_ ?_
      · refine .bind hop (leads_nil rfl) fun right => ?_
        refine (chainFrom_reads ho hop budget _).weaken (.refl _) fun _ _ _ he => ?_
        exact fun _ hr _ _ hl => he ⟨hop', hl, hr⟩
      · exact (assoc_within _ _ _).trans
          (((htok.both (.refl _)).both (.refl _)).trans (within_many_more _))

/-- The operator of a token is written by its symbol. -/
theorem operator?_eq_some {level : BinaryLevel} {kind : Token.Kind} {op : BinaryOp}
    (h : level.operator? kind = some op) : ∃ s, (s, op) ∈ level ∧ kind = .symbol s := by
  obtain ⟨p, hp, rfl⟩ := Option.map_eq_some_iff.mp h
  exact ⟨p.1, List.mem_of_find?_eq_some hp, by simpa using List.find?_some hp⟩

/-- The levels of the parser are those of the grammar. -/
theorem operators_of_levels {n : Nat} {level : BinaryLevel} (h : levels[n]? = some level) :
    ∃ s others, operators[n]? = some (s, others) ∧
      ∀ p ∈ level, p.2.symbol?.isSome = true ∧ (p.1 = s ∨ p.1 ∈ others) := by
  match n with
  | 0 | 1 | 2 | 3 | 4 | 5 =>
    cases h
    exact ⟨_, _, rfl, by decide⟩
  | n + 6 => cases h

theorem operators_of_drop_eq_nil {n : Nat} (h : levels.drop n = []) : operators[n]? = none := by
  have hn : levels.length ≤ n := List.drop_eq_nil_iff.mp h
  exact List.getElem?_eq_none_iff.mpr hn

theorem levels_of_drop_eq_cons {n : Nat} {level : BinaryLevel} {ls : List BinaryLevel}
    (h : levels.drop n = level :: ls) : levels[n]? = some level ∧ levels.drop (n + 1) = ls := by
  constructor
  · rw [← List.head?_drop, h]
    rfl
  · rw [← List.tail_drop, h]
    rfl

theorem chained_reads (hv : v.Reads (phrase .value) fun _ e => e.Canonical) (budget : Nat) :
    ∀ (ls : List BinaryLevel) (n : Nat), levels.drop n = ls →
      (chained v budget ls).Reads (phrase (.level n)) fun _ e => e.Canonical
  | [], n, hn => by
    have ho := operators_of_drop_eq_nil hn
    refine hv.within (Within.trans ?_ (within_phrase _))
    rw [Phrase.form, ho]
    exact .refl _
  | level :: ls, n, hn => by
    obtain ⟨hl, hls⟩ := levels_of_drop_eq_cons hn
    obtain ⟨s, others, hos, hlevel⟩ := operators_of_levels hl
    have ho : ∀ kind op, level.operator? kind = some op → op.symbol?.isSome = true ∧
        (token kind).Within (anyOf (symbol s) (others.map symbol)) := by
      intro kind op h
      obtain ⟨t, ht, rfl⟩ := operator?_eq_some h
      refine ⟨(hlevel _ ht).1, ?_⟩
      rcases (hlevel _ ht).2 with rfl | hmem
      · exact within_anyOf_first _ _
      · exact within_anyOf _ (List.mem_map_of_mem hmem)
    have hop := chained_reads hv budget ls (n + 1) hls
    have hchain : (chain level (chained v budget ls) budget).Reads
        (both (phrase (.level (n + 1))) (many (both (anyOf (symbol s) (others.map symbol))
          (phrase (.level (n + 1)))))) fun _ e => e.Canonical := by
      unfold chain
      refine .bind hop (leads_nil rfl) fun first => ?_
      refine (chainFrom_reads ho hop budget first).weaken (.refl _) fun _ _ _ he => ?_
      exact fun _ hf _ => he hf
    refine hchain.within (Within.trans ?_ (within_phrase _))
    rw [Phrase.form, hos]
    exact .refl _

/-! ### Variables -/

theorem token_within_name {tok : Token} {k : Token.Kind} (hk : k ∈ [.word, .decimal, .hex])
    (htok : tok.kind ∈ [k]) : (both (token tok.kind) .empty).Within (phrase .name) := by
  rw [List.mem_singleton.mp htok]
  refine (within_both_empty _).trans (Within.trans ?_ (within_phrase _))
  simp only [List.mem_cons, List.not_mem_nil, or_false] at hk
  rcases hk with rfl | rfl | rfl
  · exact within_anyOf_first _ _
  · exact within_anyOf _ (by decide)
  · exact within_anyOf _ (by decide)

theorem pathStep_reads (expected : Expectation) :
    (pathStep expected).Reads (phrase .name) fun _ v => v.isStep = true ∧ v.Canonical := by
  unfold pathStep
  refine .accept (leads_nil rfl) (fun tok htok => ?_) ?_
  · exact ⟨.empty, .done fun hu => ⟨rfl, hu.head.decimal (List.mem_singleton.mp htok)⟩,
      token_within_name (by decide) htok⟩
  refine .accept (leads_nil rfl) (fun tok htok => ?_) ?_
  · exact ⟨.empty, .done fun hu => ⟨rfl, hu.head.hex (List.mem_singleton.mp htok)⟩,
      token_within_name (by decide) htok⟩
  refine ((Reads.expect expected rfl).map fun _ word _ h => ?_).within
    ((within_anyOf_first _ _).trans (within_phrase .name))
  exact ⟨rfl, h.2.2.word h.2.1⟩

theorem pathStart_reads : pathStart.Reads
    (either (token .word) (both (symbol .dollar) (phrase .name))) fun _ v => v.Canonical := by
  unfold pathStart
  refine .accept (leads_nil rfl) (fun tok htok => ?_) ?_
  · refine ⟨phrase .name, (pathStep_reads _).weaken (.refl _) fun _ _ _ h _ => h.2, ?_⟩
    rw [List.mem_singleton.mp htok]
    exact within_right _ _
  · refine ((Reads.expect .variableName rfl).map fun _ word _ h => ?_).within (within_left _ _)
    exact h.2.2.word h.2.1

theorem pathFrom_reads (hi : index.Reads Form.expression fun _ e => e.Canonical) :
    ∀ (budget : Nat) (parent : Variable), (pathFrom index budget parent).Reads (many pathMore)
      fun _ v => parent.Canonical → v.Canonical
  | 0, _ => .exhausted
  | budget + 1, parent => by
    unfold pathFrom
    refine .accept (leads_nil rfl) (fun tok htok => ?_) ?_
    · refine ⟨both (phrase .name) (many pathMore),
        .bind (pathStep_reads _) (leads_nil rfl) fun child => ?_, ?_⟩
      · refine (pathFrom_reads hi budget _).weaken (.refl _) fun _ _ _ hv => ?_
        exact fun _ hc _ _ hp => hv ⟨hp, hc⟩
      · rw [List.mem_singleton.mp htok]
        exact (assoc_within _ _ _).trans
          (((within_left _ _).both (.refl _)).trans (within_many_more _))
    refine .accept (leads_nil rfl) (fun tok htok => ?_) ?_
    · refine ⟨both Form.expression (both (symbol .rightBracket) (many pathMore)),
        .bind hi (leads_nil rfl) fun e => ?_, ?_⟩
      · refine .bind (.expect _ rfl) (leads_nil rfl) fun _ => ?_
        refine (pathFrom_reads hi budget _).weaken (.refl _) fun _ _ _ hv => ?_
        exact fun _ _ _ _ he _ _ hp => hv ⟨hp, he⟩
      · rw [List.mem_singleton.mp htok]
        refine Within.trans ?_ (((within_right _ _).both (.refl _)).trans (within_many_more _))
        exact (Within.both (.refl _) (assoc_within _ _ _)).trans (assoc_within _ _ _)
    · exact (Reads.done fun h => h).within (within_many_none _)

theorem path_reads (hi : index.Reads Form.expression fun _ e => e.Canonical) (budget : Nat) :
    (path index budget).Reads (phrase .path) fun _ v => v.Canonical := by
  have h : (path index budget).Reads Phrase.path.form fun _ v => v.Canonical := by
    unfold path
    refine .bind pathStart_reads (leads_nil rfl) fun first => ?_
    exact (pathFrom_reads hi budget first).weaken (.refl _) fun _ _ _ hv _ hf _ => hv hf
  exact h.within (within_phrase _)

/-! ### Values -/

/-- A number behind its sign. -/
def signed (sign : Option Token) (e : Expr) : Expr :=
  if sign.any (·.kind = .symbol .minus) then .unary .negative e else e

theorem canonical_signed {sign : Option Token} {e : Expr} (hn : e.isNumber = true)
    (he : e.Canonical) : (signed sign e).Canonical := by
  unfold signed
  split
  · exact ⟨fun _ => hn, he⟩
  · exact he

/-- A number without its sign. -/
def numeral (sign : Option Token) : Script Expr := do
  match ← accept [.decimal] with
  | some tok => return signed sign (.decimal tok.text)
  | none =>
    match ← accept [.hex] with
    | some tok => return signed sign (.hex tok.text)
    | none => reject .number (← peek 0)

theorem number_eq : number = (accept [.symbol .plus, .symbol .minus]).bind numeral := rfl

theorem numeral_reads (sign : Option Token) :
    (numeral sign).Reads (either (token .decimal) (token .hex)) fun _ e => e.Canonical := by
  unfold numeral
  refine .accept (leads_nil rfl) (fun tok htok => ?_) ?_
  · rw [List.mem_singleton.mp htok]
    refine ⟨.empty, .done fun hu => ?_, (within_both_empty _).trans (within_left _ _)⟩
    exact canonical_signed rfl (hu.head.decimal (List.mem_singleton.mp htok))
  refine .accept (leads_nil rfl) (fun tok htok => ?_) (.reject (leads_nil rfl))
  rw [List.mem_singleton.mp htok]
  refine ⟨.empty, .done fun hu => ?_, (within_both_empty _).trans (within_right _ _)⟩
  exact canonical_signed rfl (hu.head.hex (List.mem_singleton.mp htok))

theorem number_reads : number.Reads
    (both (optional (either (symbol .plus) (symbol .minus))) (either (token .decimal) (token .hex)))
    fun _ e => e.Canonical := by
  rw [number_eq]
  refine .accept (leads_nil rfl) (fun tok htok => ?_) ?_
  · refine ⟨_, (numeral_reads (some tok)).weaken (.refl _) fun _ _ _ h _ => h, ?_⟩
    refine Within.both ((?_ : (token tok.kind).Within _).trans (within_left _ _)) (.refl _)
    rcases List.mem_cons.mp htok with h | h
    · rw [h]
      exact within_left _ _
    · rw [List.mem_singleton.mp h]
      exact within_right _ _
  · exact (numeral_reads none).within (within_behind_optional _ _)

theorem canonical_grouped {es : List Expr} (hne : es ≠ []) (h : ∀ e ∈ es, e.Canonical) :
    (grouped es).Canonical := by
  match es, hne with
  | [e], _ => exact h e List.mem_cons_self
  | e :: d :: es, _ => exact ⟨by simp, Expr.canonicalAll_iff.mpr h⟩

/-- An expression reads with what its values read. -/
theorem nested_reads {budget : Nat}
    (hv : (value budget).Reads (phrase .value) fun _ e => e.Canonical) (levelBudget : Nat) :
    (chained (value budget) levelBudget levels).Reads Form.expression fun _ e => e.Canonical :=
  chained_reads hv levelBudget levels 0 rfl

/-- A variable, or a call if a parenthesis follows. -/
def reference (index : Script Expr) (budget : Nat) : Script Expr := do
  let called ← path index budget
  match ← accept [.symbol .leftParen] with
  | some _ => return .apply called (← parenthesized index budget)
  | none => return .lookup called

theorem reference_reads (hn : index.Reads Form.expression fun _ e => e.Canonical) (budget : Nat) :
    (reference index budget).Reads (both (phrase .path) (optional (sequence
      [symbol .leftParen, optional (separated Form.expression), symbol .rightParen])))
      fun _ e => e.Canonical := by
  unfold reference
  refine .bind (path_reads hn budget) (leads_optional _) fun called => ?_
  refine .accept (leads_optional _) (fun tok htok => ?_) ?_
  · refine ⟨_, (parenthesized_reads hn budget).map fun _ as _ has _ _ hc _ => ?_, ?_⟩
    · exact ⟨hc, Expr.canonicalAll_iff.mpr has⟩
    · rw [List.mem_singleton.mp htok]
      exact within_left _ _
  · exact (Reads.done fun _ hc _ => hc).within (within_right _ _)

/-- A value behind a sign. -/
def prefixed (op : UnaryOp) (operand : Script Expr) : Script Expr := do
  let _ ← advance
  return .unary op (← operand)

/-- A value that is no reference. -/
theorem within_value {f : Form} (hf : f ∈
    [token .string,
     both (optional (either (symbol .plus) (symbol .minus))) (either (token .decimal) (token .hex)),
     both (anyOf (symbol .hash) [symbol .bang, symbol .question]) (phrase .value),
     sequence [symbol .leftParen, separated Form.expression, symbol .rightParen]]) :
    f.Within (phrase .value) :=
  (within_anyOf _ hf).trans (within_phrase .value)

theorem prefixed_reads (hv : v.Reads (phrase .value) fun _ e => e.Canonical) {op : UnaryOp}
    (hop : op ≠ .negative) {s : Symbol} (hs : s ∈ [.hash, .bang, .question]) {tok : Token}
    (htok : tok.kind = .symbol s) :
    ReadsAt tok (prefixed op v) (phrase .value) fun _ e => e.Canonical := by
  unfold prefixed
  refine .advance (hv.map fun _ _ _ he _ => ⟨fun h => absurd h hop, he⟩) ?_
  refine Within.trans (Within.both ?_ (.refl _)) (within_value
    (f := both (anyOf (symbol .hash) [symbol .bang, symbol .question]) (phrase .value)) (by simp))
  rw [htok]
  simp only [List.mem_cons, List.not_mem_nil, or_false] at hs
  rcases hs with rfl | rfl | rfl
  · exact within_anyOf_first _ _
  · exact within_anyOf _ (by decide)
  · exact within_anyOf _ (by decide)

/-- **A value reads the form of values** and is canonical. -/
theorem value_reads : ∀ budget : Nat,
    (value budget).Reads (phrase .value) fun _ e => e.Canonical
  | 0 => .exhausted
  | budget + 1 => by
    have ih := value_reads budget
    have hn := nested_reads ih budget
    have hreference := (reference_reads hn budget).within
      ((within_anyOf_first _ _).trans (within_phrase .value))
    have hnumber := number_reads.within (within_value (by simp))
    unfold value
    refine .look (leads_nil rfl) fun tok => ?_
    simp only [bind]
    split
    · exact hreference.at_token
    · exact hreference.at_token
    · rename_i hk
      refine .advance (.done fun hu => hu.head.string hk) ?_
      rw [hk]
      exact (within_both_empty _).trans (within_value (by simp))
    · exact hnumber.at_token
    · exact hnumber.at_token
    · exact hnumber.at_token
    · exact hnumber.at_token
    · exact prefixed_reads ih (s := .hash) (by decide) (by decide) ‹_›
    · exact prefixed_reads ih (s := .bang) (by decide) (by decide) ‹_›
    · exact prefixed_reads ih (s := .question) (by decide) (by decide) ‹_›
    · rename_i hk
      refine .advance (f := both (separated Form.expression) (symbol .rightParen)) ?_ ?_
      · refine .bind (items_reads hn budget) (leads_nil rfl) fun es => ?_
        refine (Reads.expect _ rfl).map fun _ _ _ _ _ hes _ _ => ?_
        exact canonical_grouped hes.1 hes.2
      · rw [hk]
        exact within_value (by simp [Form.sequence, symbol])
    · exact .reject (leads_nil rfl)

/-- An expression reads its form and is canonical. -/
theorem expression_reads (budget : Nat) :
    (expression budget).Reads Form.expression fun _ e => e.Canonical :=
  nested_reads (value_reads budget) budget

/-- A variable reads its form and is canonical. -/
theorem variablePath_reads (budget : Nat) :
    (variablePath budget).Reads (phrase .path) fun _ v => v.Canonical :=
  path_reads (expression_reads budget) budget

end Script
end ClearSilver
