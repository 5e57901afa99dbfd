/-
# A written expression is taken for itself

The scripts of expressions take the tokens that have the lexemes of a variable
or an expression for that variable or expression. What lexemes are read as goes
together as the lexemes do: a list in parentheses, a call, a path with an index
(`readAsValue_grouped`, `ReadAsPath.apply`, `ReadAsPath.index`). What stands in
parentheses for a binary operation is a single item, so it is taken as the
operation; the other operators group nothing, and the operands of one are values.

Key definitions: `Script.TakesEach`, `ReadAsValue`, `ReadAsExpression`, `ReadAsPath`,
`Expr.Taken`, `Variable.Passed`.
Key theorems: `Script.chained_binary`, `ReadAsPath.apply`, `ReadAsPath.index`,
`readAsValue_grouped`, `Variable.passed`, `Expr.taken`, `Expr.expression_takes`.
-/
import Mathlib.Data.List.Forall2
import ClearSilver.Proofs.Parser.ExpressionTakes
import ClearSilver.Proofs.Written.Expression

namespace ClearSilver

/-- The first of some tokens is the first lexeme. -/
theorem map_lexeme_cons {ts : List Token} {k : Token.Kind} {x : Text} {ls : List Lexeme}
    (h : ts.map Token.lexeme = (k, x) :: ls) :
    ∃ tok us, ts = tok :: us ∧ tok.kind = k ∧ tok.text = x ∧ us.map Token.lexeme = ls := by
  obtain ⟨tok, us, rfl, htok, hus⟩ := List.map_eq_cons_iff.mp h
  obtain ⟨hk, hx⟩ := Prod.mk.inj htok
  exact ⟨tok, us, rfl, hk, hx, hus⟩

theorem map_lexeme_singleton {ts : List Token} {k : Token.Kind} {x : Text}
    (h : ts.map Token.lexeme = [(k, x)]) : ∃ tok, ts = [tok] ∧ tok.kind = k ∧ tok.text = x := by
  obtain ⟨tok, us, rfl, hk, hx, hus⟩ := map_lexeme_cons h
  exact ⟨tok, by rw [List.map_eq_nil_iff.mp hus], hk, hx⟩

/-- A text between quotes, without them. -/
theorem unquoted_inQuotes (t : Text) : unquoted t.inQuotes = t := by
  simp [unquoted, Text.inQuotes]

/-! ### Operators -/

/-- The levels up to the one of an operator, and those behind it, where it is
no operator. -/
theorem BinaryOp.levels_split {op : BinaryOp} {s : Symbol} (h : op.symbol? = some s) :
    ∃ looser level tighter, levels = looser ++ level :: tighter ∧
      level.operator? (.symbol s) = some op ∧ ¬ Token.Kind.Extends tighter (.symbol s) := by
  cases op <;> cases h
  case or => exact ⟨levels.take 0, _, levels.drop 1, rfl, rfl, by decide⟩
  case and => exact ⟨levels.take 1, _, levels.drop 2, rfl, rfl, by decide⟩
  case eq | ne => exact ⟨levels.take 2, _, levels.drop 3, rfl, rfl, by decide⟩
  case lt | gt | lte | gte => exact ⟨levels.take 3, _, levels.drop 4, rfl, rfl, by decide⟩
  case add | subtract => exact ⟨levels.take 4, _, levels.drop 5, rfl, rfl, by decide⟩
  case multiply | divide | modulo => exact ⟨levels.take 5, _, levels.drop 6, rfl, rfl, by decide⟩

namespace Script

variable {v : Script Expr} {budget : Nat} {us vs ts : List Token} {tok : Token}
  {e left right : Expr}

/-- What is taken at some levels is taken at looser ones. -/
theorem chained_append {ls : List BinaryLevel} (hb : 0 < budget)
    (h : (chained v budget ls).Takes ts e (Clear (Token.Kind.Extends ls))) :
    ∀ looser : List BinaryLevel,
      (chained v budget (looser ++ ls)).Takes ts e (Clear (Token.Kind.Extends (looser ++ ls)))
  | [] => h
  | level :: looser => by
    have ih := chained_append hb h looser
    obtain ⟨b, rfl⟩ : ∃ b, budget = b + 1 := ⟨budget - 1, by omega⟩
    have hend : (chainFrom level (chained v (b + 1) (looser ++ ls)) (b + 1) e).Takes [] e _ :=
      chainFrom_end level b e
    rw [← List.append_nil ts]
    refine Takes.bind ih (hend.weaken fun rest hrest => ?_) fun rest hrest => ?_
    · exact Clear.weaken hrest fun k hk => .inr (.inr ⟨level, List.mem_cons_self, hk⟩)
    · exact Clear.weaken hrest fun k hk => hk.mono fun _ => List.mem_cons_of_mem _

/-- A value is an expression. -/
theorem nested_of_value (h : (value budget).Takes ts e (Clear (Token.Kind.Extends [])))
    (hb : 0 < budget) : (nested budget).Takes ts e (Clear (Token.Kind.Extends levels)) := by
  have hchained : (chained (value budget) budget []).Takes ts e (Clear (Token.Kind.Extends [])) := h
  exact chained_append hb hchained levels

/-- Two values with an operator between them are its operation. -/
theorem chained_binary {op : BinaryOp} {s : Symbol} (hs : op.symbol? = some s)
    (htok : tok.kind = .symbol s) (hb : 1 < budget)
    (hl : v.Takes us left (Clear (Token.Kind.Extends [])))
    (hr : v.Takes vs right (Clear (Token.Kind.Extends []))) :
    (chained v budget levels).Takes (us ++ tok :: vs) (.binary op left right)
      (Clear (Token.Kind.Extends levels)) := by
  obtain ⟨b, rfl⟩ : ∃ b, budget = b + 2 := ⟨budget - 2, by omega⟩
  obtain ⟨looser, level, tighter, hlevels, hop, hno⟩ := BinaryOp.levels_split hs
  have hvalue : ∀ {ts : List Token} {e : Expr}, v.Takes ts e (Clear (Token.Kind.Extends [])) →
      (chained v (b + 2) tighter).Takes ts e (Clear (Token.Kind.Extends tighter)) := by
    intro ts e h
    have hchained : (chained v (b + 2) []).Takes ts e (Clear (Token.Kind.Extends [])) := h
    have htighter := chained_append (Nat.lt_of_succ_lt hb) hchained tighter
    rwa [List.append_nil] at htighter
  have hend : (chainFrom level (chained v (b + 2) tighter) (b + 1) (.binary op left right)).Takes
      [] (.binary op left right) (Clear (Token.Kind.Extends (level :: tighter))) :=
    (chainFrom_end level b _).weaken fun rest h => h.weaken fun k hk =>
      .inr (.inr ⟨level, List.mem_cons_self, hk⟩)
  rw [hlevels]
  refine chained_append (by omega) ?_ looser
  rw [← List.append_nil (tok :: vs)]
  refine Takes.bind (hvalue hl) ((chainFrom_more (b + 1) left (by rw [htok, hop])
    (hvalue hr)).trans hend fun rest h => ?_) fun rest _ => .cons (by rwa [htok]) _
  exact Clear.weaken h fun k hk => hk.mono fun _ => List.mem_cons_of_mem _

/-! ### Lists -/

/-- Does the script take all tokens with these lists of lexemes for these
results, one each? -/
inductive TakesEach {α : Type} (item : Script α) (stop : Token.Kind → Prop) :
    List (List Lexeme) → List α → Prop
  | nil : TakesEach item stop [] []
  | cons {ls : List Lexeme} {lss : List (List Lexeme)} {a : α} {as : List α}
      (h : ∀ ts : List Token, ts.map Token.lexeme = ls → item.Takes ts a (Clear stop))
      (hs : TakesEach item stop lss as) : TakesEach item stop (ls :: lss) (a :: as)

variable {α : Type} {item : Script α} {stop : Token.Kind → Prop} {ls : List Lexeme}
  {lss : List (List Lexeme)} {a : α} {as : List α}

/-- Items with a comma before each, as tokens. -/
theorem TakesEach.takesAll (h : TakesEach item stop lss as) : ∀ {ts : List Token},
    ts.map Token.lexeme = (lss.flatMap fun ls => Lexeme.symbol .comma :: ls) →
      TakesAll item stop ts as ∧ as.length ≤ ts.length := by
  induction h with
  | nil =>
    intro ts hts
    obtain rfl := List.map_eq_nil_iff.mp hts
    exact ⟨.nil, Nat.le_refl _⟩
  | cons h _ ih =>
    intro ts hts
    rw [List.flatMap_cons, List.cons_append] at hts
    obtain ⟨tok, us, rfl, htok, -, hus⟩ := map_lexeme_cons hts
    obtain ⟨xs, ys, rfl, hxs, hys⟩ := List.map_eq_append_iff.mp hus
    obtain ⟨hys, hle⟩ := ih hys
    refine ⟨.cons htok (h xs hxs) hys, ?_⟩
    simp only [List.length_cons, List.length_append]
    omega

theorem listed_cons (ls : List Lexeme) : ∀ lss : List (List Lexeme),
    Lexeme.listed (ls :: lss) = ls ++ lss.flatMap fun ls => Lexeme.symbol .comma :: ls
  | [] => (List.append_nil ls).symm
  | ms :: lss => by rw [Lexeme.listed, listed_cons ms lss, List.flatMap_cons, List.cons_append]

theorem length_le_listed : ∀ {lss : List (List Lexeme)}, ls ∈ lss →
    ls.length ≤ (Lexeme.listed lss).length
  | ms :: lss, h => by
    rw [listed_cons, List.length_append]
    rcases List.mem_cons.mp h with rfl | h
    · omega
    · have hle := (List.sublist_flatten_of_mem (List.mem_map_of_mem
        (f := fun ls => Lexeme.symbol .comma :: ls) h)).length_le
      rw [← List.flatMap_def, List.length_cons] at hle
      omega

/-- A list with at least one item. -/
theorem TakesEach.items (hcomma : ¬ stop (.symbol .comma)) (h : TakesEach item stop (ls :: lss) as)
    (hts : ts.map Token.lexeme = Lexeme.listed (ls :: lss)) (hlen : ts.length < budget) :
    (Script.items item budget).Takes ts as (Clear (MoreItems stop)) := by
  rw [listed_cons] at hts
  obtain ⟨us, vs, rfl, hus, hvs⟩ := List.map_eq_append_iff.mp hts
  cases h with
  | cons h hs =>
    obtain ⟨hall, hle⟩ := hs.takesAll hvs
    rw [List.length_append] at hlen
    exact items_takes hcomma (h us hus) hall (by omega)

/-- A list in parentheses, behind the opening one. -/
theorem TakesEach.parenthesized (hcomma : ¬ stop (.symbol .comma))
    (hclose : ¬ stop (.symbol .rightParen)) (hreject : item.RejectsClose)
    (h : TakesEach item stop lss as)
    (hts : ts.map Token.lexeme = Lexeme.listed lss ++ [Lexeme.symbol .rightParen])
    (hlen : ts.length ≤ budget) : (Script.parenthesized item budget).Takes ts as anyRest := by
  obtain ⟨us, vs, rfl, hus, hvs⟩ := List.map_eq_append_iff.mp hts
  obtain ⟨last, rfl, hlast, -⟩ := map_lexeme_singleton hvs
  rw [List.length_append, List.length_singleton] at hlen
  cases lss with
  | nil =>
    cases h
    obtain rfl := List.map_eq_nil_iff.mp hus
    exact parenthesized_nil hlast budget
  | cons ls lss =>
    exact parenthesized_of_items hclose hreject (h.items hcomma hus (by omega)) hlast

end Script

open Script

/-! ### Lexemes that are read as one thing -/

/-- Are tokens with these lexemes taken for the value? -/
def ReadAsValue (ls : List Lexeme) (e : Expr) : Prop :=
  ∀ (ts : List Token) (budget : Nat), ts.map Token.lexeme = ls → ts.length < budget →
    (value budget).Takes ts e (Clear (Token.Kind.Extends []))

/-- Are tokens with these lexemes taken for the expression? -/
def ReadAsExpression (ls : List Lexeme) (e : Expr) : Prop :=
  ∀ (ts : List Token) (budget : Nat), ts.map Token.lexeme = ls → ts.length < budget →
    (nested budget).Takes ts e (Clear (Token.Kind.Extends levels))

/-- Are tokens with these lexemes passed over for the variable, up to what can go
on behind it? -/
def ReadAsPath (ls : List Lexeme) (v : Variable) : Prop :=
  ∀ (ts : List Token) (budget : Nat), ts.map Token.lexeme = ls → ts.length ≤ budget →
    ∃ b, budget < b + ts.length ∧
      (path (nested budget) budget).Passes ts (pathFrom (nested budget) b v) anyRest

/-- Do tokens with these lexemes begin as a path does? -/
def BeginsPath (ls : List Lexeme) : Prop :=
  ∀ ts : List Token, ts.map Token.lexeme = ls →
    ∃ tok us, ts = tok :: us ∧ (tok.kind = .word ∨ tok.kind = .symbol .dollar)

section

variable {ls ls' : List Lexeme} {lss : List (List Lexeme)} {e : Expr} {es : List Expr}
  {v : Variable}

theorem ReadAsValue.expression (h : ReadAsValue ls e) : ReadAsExpression ls e :=
  fun ts budget hts hlen => nested_of_value (h ts budget hts hlen) (by omega)

theorem takesEach_of_readAs (h : List.Forall₂ ReadAsExpression lss es) {budget : Nat}
    (hlen : ∀ ls ∈ lss, ls.length < budget) :
    TakesEach (nested budget) (Token.Kind.Extends levels) lss es := by
  induction h with
  | nil => exact .nil
  | cons h _ ih =>
    obtain ⟨hlt, hrest⟩ := List.forall_mem_cons.mp hlen
    refine .cons (fun ts hts => h ts budget hts ?_) (ih hrest)
    rwa [← List.length_map, hts]

/-- Items of a list are shorter than what they are written in. -/
theorem takesEach_of_listed (h : List.Forall₂ ReadAsExpression lss es) {budget : Nat}
    (hlen : (Lexeme.listed lss).length < budget) :
    TakesEach (nested budget) (Token.Kind.Extends levels) lss es :=
  takesEach_of_readAs h fun _ hls => Nat.lt_of_le_of_lt (length_le_listed hls) hlen

/-- A path alone is a value. -/
theorem ReadAsPath.lookup (h : ReadAsPath ls v) (hfirst : BeginsPath ls) :
    ReadAsValue ls (.lookup v) := by
  intro ts budget hts hlen
  obtain ⟨budget, rfl⟩ : ∃ n, budget = n + 1 := ⟨budget - 1, by omega⟩
  obtain ⟨tok, us, rfl, hk⟩ := hfirst ts hts
  have hpath := takes_of_passes (h _ budget hts (by omega)) (by omega)
  exact value_reference hk (reference_lookup hpath)

/-- A path with a list in parentheses behind it is a call. -/
theorem ReadAsPath.apply (h : ReadAsPath ls v) (hfirst : BeginsPath ls)
    (hes : List.Forall₂ ReadAsExpression lss es) :
    ReadAsValue (ls ++ Lexeme.symbol .leftParen :: (Lexeme.listed lss ++
      [Lexeme.symbol .rightParen])) (.apply v es) := by
  intro ts budget hts hlen
  obtain ⟨budget, rfl⟩ : ∃ n, budget = n + 1 := ⟨budget - 1, by omega⟩
  obtain ⟨us, ws, rfl, hus, hws⟩ := List.map_eq_append_iff.mp hts
  obtain ⟨paren, xs, rfl, hparen, -, hxs⟩ := map_lexeme_cons hws
  have hlist := congrArg List.length hxs
  simp only [List.length_map, List.length_append, List.length_cons, List.length_nil] at hlen hlist
  have hpath := takes_of_passes (h us budget hus (by omega)) (by omega)
  have hargs := (takesEach_of_listed hes (by omega)).parenthesized (by decide) (by decide)
    (chained_rejectsClose (value_rejectsClose budget) budget levels) hxs
    (show xs.length ≤ budget by omega)
  obtain ⟨tok, us, rfl, hk⟩ := hfirst us hus
  exact (value_reference hk (reference_apply hpath hparen hargs)).weaken fun _ _ => trivial

/-- A path goes on with an expression in brackets. -/
theorem ReadAsPath.index (h : ReadAsPath ls v) (he : ReadAsExpression ls' e) :
    ReadAsPath (ls ++ Lexeme.symbol .leftBracket :: (ls' ++ [Lexeme.symbol .rightBracket]))
      (.expand v e) := by
  intro ts budget hts hlen
  obtain ⟨us, ws, rfl, hus, hws⟩ := List.map_eq_append_iff.mp hts
  obtain ⟨tok, xs, rfl, hk, -, hxs⟩ := map_lexeme_cons hws
  obtain ⟨ys, zs, rfl, hys, hzs⟩ := List.map_eq_append_iff.mp hxs
  obtain ⟨last, rfl, hlast, -⟩ := map_lexeme_singleton hzs
  simp only [List.length_append, List.length_cons, List.length_nil] at hlen
  obtain ⟨b, hb, hpass⟩ := h us budget hus (by omega)
  obtain ⟨b, rfl⟩ : ∃ n, b = n + 1 := ⟨b - 1, by omega⟩
  have hindex := he ys budget hys (by omega)
  refine ⟨b, ?_, hpass.trans (pathFrom_index b v hk hlast hindex fun rest => .cons ?_ rest)
    fun _ _ => trivial⟩
  · simp only [List.length_append, List.length_cons, List.length_nil]
    omega
  · rw [hlast]
    decide

/-- What begins as a path does goes on as it likes. -/
theorem BeginsPath.append (h : BeginsPath ls) (ls' : List Lexeme) : BeginsPath (ls ++ ls') := by
  intro ts hts
  obtain ⟨us, ws, rfl, hus, -⟩ := List.map_eq_append_iff.mp hts
  obtain ⟨tok, us, rfl, hk⟩ := h us hus
  exact ⟨tok, us ++ ws, rfl, hk⟩

/-- A list in parentheses is a value: its item if it has only one, else the
sequence. -/
theorem readAsValue_grouped (hes : List.Forall₂ ReadAsExpression (ls :: lss) es) :
    ReadAsValue (Lexeme.symbol .leftParen :: (Lexeme.listed (ls :: lss) ++
      [Lexeme.symbol .rightParen])) (grouped es) := by
  intro ts budget hts hlen
  obtain ⟨budget, rfl⟩ : ∃ n, budget = n + 1 := ⟨budget - 1, by omega⟩
  obtain ⟨paren, xs, rfl, hparen, -, hxs⟩ := map_lexeme_cons hts
  obtain ⟨us, ws, rfl, hus, hws⟩ := List.map_eq_append_iff.mp hxs
  obtain ⟨last, rfl, hlast, -⟩ := map_lexeme_singleton hws
  have hlist := congrArg List.length hus
  simp only [List.length_map, List.length_append, List.length_cons, List.length_nil] at hlen hlist
  have heach : TakesEach (nested budget) (Token.Kind.Extends levels) (ls :: lss) es :=
    takesEach_of_listed hes (by omega)
  have hitems := heach.items (by decide) hus (show us.length < budget by omega)
  exact (value_group hparen hlast hitems (clear_rightParen hlast)).weaken fun _ _ => trivial

end

/-! ### Variables and expressions -/

theorem Variable.step_takes {v : Variable} (hv : v.isStep = true) (expected : Expectation)
    {ts : List Token} (hts : ts.map Token.lexeme = v.stepLexemes) :
    (pathStep expected).Takes ts v anyRest := by
  cases v with
  | name word =>
    obtain ⟨tok, rfl, hk, rfl⟩ := map_lexeme_singleton hts
    exact pathStep_word expected hk
  | decNumber digits =>
    obtain ⟨tok, rfl, hk, rfl⟩ := map_lexeme_singleton hts
    exact pathStep_decimal expected hk
  | hexNumber digits =>
    obtain ⟨tok, rfl, hk, rfl⟩ := map_lexeme_singleton hts
    exact pathStep_hex expected hk
  | descend _ _ | expand _ _ => cases hv

/-- A written variable begins with a word or a dollar sign. -/
theorem Variable.beginsPath : ∀ v : Variable, BeginsPath v.lexemes
  | .name word, ts, hts => by
    obtain ⟨tok, rfl, hk, -⟩ := map_lexeme_singleton hts
    exact ⟨tok, [], rfl, .inl hk⟩
  | .decNumber digits, ts, hts | .hexNumber digits, ts, hts => by
    obtain ⟨tok, us, rfl, hk, -, -⟩ := map_lexeme_cons hts
    exact ⟨tok, us, rfl, .inr hk⟩
  | .descend parent child, ts, hts => parent.beginsPath.append _ ts hts
  | .expand parent index, ts, hts => parent.beginsPath.append _ ts hts

/-- Are tokens with the lexemes of the expression taken for it? -/
def Expr.Taken (e : Expr) : Prop := ReadAsValue e.lexemes e

/-- Are tokens with the lexemes of the variable passed over, up to what can go
on behind it? -/
def Variable.Passed (v : Variable) : Prop := ReadAsPath v.lexemes v

/-- Are these expressions taken one each? -/
def Expr.TakenEach (es : List Expr) : Prop :=
  List.Forall₂ ReadAsExpression (Expr.lexemesAll es) es

section

variable {parent child : Variable} {e left right : Expr} {es : List Expr}

theorem descend_passed (hp : parent.Passed) (hs : child.isStep = true) :
    (Variable.descend parent child).Passed := by
  intro ts budget hts hlen
  rw [Variable.lexemes] at hts
  obtain ⟨us, ws, rfl, hus, hws⟩ := List.map_eq_append_iff.mp hts
  obtain ⟨tok, xs, rfl, hk, -, hxs⟩ := map_lexeme_cons hws
  simp only [List.length_append, List.length_cons] at hlen
  obtain ⟨b, hb, hpass⟩ := hp us budget hus (by omega)
  obtain ⟨b, rfl⟩ : ∃ n, b = n + 1 := ⟨b - 1, by omega⟩
  refine ⟨b, ?_, hpass.trans (pathFrom_dot b parent hk (child.step_takes hs .nameAfterDot hxs))
    fun _ _ => trivial⟩
  simp only [List.length_append, List.length_cons]
  omega

theorem sequence_taken (htwo : 2 ≤ es.length) (hi : Expr.TakenEach es) :
    (Expr.sequence es).Taken := by
  match es, htwo with
  | e₁ :: e₂ :: es, _ => exact readAsValue_grouped hi

/-- A sign is taken with the number behind it. -/
theorem negative_taken (h : e.isNumber = true) : (Expr.unary .negative e).Taken := by
  intro ts budget hts hlen
  obtain ⟨budget, rfl⟩ : ∃ n, budget = n + 1 := ⟨budget - 1, by omega⟩
  obtain ⟨tok, us, rfl, hk, -, hus⟩ := map_lexeme_cons hts
  have hk : tok.kind = .symbol .minus := hk
  have hsigned : ∀ e, signed (some tok) e = .unary .negative e := fun e => by simp [signed, hk]
  have hnumber : ∀ {us : List Token} {e : Expr}, (numeral (some tok)).Takes us e anyRest →
      (value (budget + 1)).Takes (tok :: us) e (Clear (Token.Kind.Extends [])) := fun h =>
    (value_number (by simp [hk]) (number_signed (.inr hk) h)).weaken fun _ _ => trivial
  cases e with
  | decimal digits =>
    obtain ⟨last, rfl, hlast, rfl⟩ := map_lexeme_singleton hus
    rw [← hsigned]
    exact hnumber (numeral_decimal (some tok) hlast)
  | hex digits =>
    obtain ⟨last, rfl, hlast, rfl⟩ := map_lexeme_singleton hus
    rw [← hsigned]
    exact hnumber (numeral_hex (some tok) hlast)
  | _ => cases h

theorem unary_taken {op : UnaryOp} (hop : op = .negative → e.isNumber = true) (he : e.Taken) :
    (Expr.unary op e).Taken := by
  intro ts budget hts hlen
  have hall := hts
  obtain ⟨budget, rfl⟩ : ∃ n, budget = n + 1 := ⟨budget - 1, by omega⟩
  obtain ⟨tok, us, rfl, hk, -, hus⟩ := map_lexeme_cons hts
  have hoperand := he us budget hus (Nat.lt_of_succ_lt_succ hlen)
  cases op with
  | numeric => exact value_prefixed (s := .hash) rfl hk hoperand
  | not => exact value_prefixed (s := .bang) rfl hk hoperand
  | exist => exact value_prefixed (s := .question) rfl hk hoperand
  | negative => exact negative_taken (hop rfl) _ _ hall hlen

theorem binary_taken {op : BinaryOp} (hop : op.symbol?.isSome = true) (hl : left.Taken)
    (hr : right.Taken) : (Expr.binary op left right).Taken := by
  intro ts budget hts hlen
  obtain ⟨budget, rfl⟩ : ∃ n, budget = n + 1 := ⟨budget - 1, by omega⟩
  obtain ⟨s, hs⟩ := Option.isSome_iff_exists.mp hop
  have hsign : op.lexemes = [Lexeme.symbol s] := by
    rw [BinaryOp.lexemes, hs]
    rfl
  rw [Expr.lexemes, hsign, List.singleton_append] at hts
  obtain ⟨paren, xs, rfl, hparen, -, hxs⟩ := map_lexeme_cons hts
  obtain ⟨us, ws, rfl, hus, hws⟩ := List.map_eq_append_iff.mp hxs
  obtain ⟨sign, ys, rfl, hsign, -, hys⟩ := map_lexeme_cons hws
  obtain ⟨vs, zs, rfl, hvs, hzs⟩ := List.map_eq_append_iff.mp hys
  obtain ⟨last, rfl, hlast, -⟩ := map_lexeme_singleton hzs
  simp only [List.length_append, List.length_cons, List.length_nil] at hlen
  have hbinary := chained_binary hs hsign (show 1 < budget by omega)
    (hl us budget hus (by omega)) (hr vs budget hvs (by omega))
  have hitems := items_takes (by decide) hbinary .nil (show 0 < budget by omega)
  rw [List.append_nil] at hitems
  have hgroup : (value (budget + 1)).Takes (paren :: (us ++ sign :: vs) ++ [last])
      (.binary op left right) anyRest := value_group hparen hlast hitems (clear_rightParen hlast)
  simp only [List.cons_append, List.append_assoc] at hgroup
  exact hgroup.weaken fun _ _ => trivial

end

mutual

/-- **A written variable is passed over.** -/
theorem Variable.passed : ∀ v : Variable, v.Canonical → v.Passed
  | .name word, _, ts, budget, hts, _ => by
    obtain ⟨tok, rfl, hk, rfl⟩ := map_lexeme_singleton hts
    exact ⟨budget, by simp, .bind (pathStart_word hk)⟩
  | .decNumber digits, _, ts, budget, hts, _ => by
    obtain ⟨tok, us, rfl, hk, -, hus⟩ := map_lexeme_cons hts
    have hstep := Variable.step_takes (v := .decNumber digits) rfl .variableName hus
    exact ⟨budget, by simp, .bind (pathStart_dollar hk hstep)⟩
  | .hexNumber digits, _, ts, budget, hts, _ => by
    obtain ⟨tok, us, rfl, hk, -, hus⟩ := map_lexeme_cons hts
    have hstep := Variable.step_takes (v := .hexNumber digits) rfl .variableName hus
    exact ⟨budget, by simp, .bind (pathStart_dollar hk hstep)⟩
  | .descend parent _, ⟨hp, hs, _⟩, ts, budget, hts, hlen =>
    descend_passed (parent.passed hp) hs ts budget hts hlen
  | .expand parent index, ⟨hp, hi⟩, ts, budget, hts, hlen =>
    ReadAsPath.index (parent.passed hp) (index.taken hi).expression ts budget hts hlen

/-- **A written expression is taken as a value.** -/
theorem Expr.taken : ∀ e : Expr, e.Canonical → e.Taken
  | e, _, ts, 0, _, hlen => absurd hlen (Nat.not_lt_zero _)
  | .string content, h, ts, budget + 1, hts, _ => by
    obtain ⟨tok, rfl, hk, hx⟩ := map_lexeme_singleton hts
    have hstring : (value (budget + 1)).Takes [tok] (.string (unquoted tok.text))
        (Clear (Token.Kind.Extends [])) := (value_string hk).weaken fun _ _ => trivial
    rwa [hx, unquoted_inQuotes] at hstring
  | .decimal digits, h, ts, budget + 1, hts, _ => by
    obtain ⟨tok, rfl, hk, rfl⟩ := map_lexeme_singleton hts
    exact (value_number (by simp [hk]) (number_unsigned (.inl hk) (numeral_decimal none hk))).weaken
      fun _ _ => trivial
  | .hex digits, h, ts, budget + 1, hts, _ => by
    obtain ⟨tok, rfl, hk, rfl⟩ := map_lexeme_singleton hts
    exact (value_number (by simp [hk]) (number_unsigned (.inr hk) (numeral_hex none hk))).weaken
      fun _ _ => trivial
  | .lookup path, h, ts, budget + 1, hts, hlen =>
    ReadAsPath.lookup (path.passed h) path.beginsPath ts (budget + 1) hts hlen
  | .apply callee arguments, ⟨hc, ha⟩, ts, budget + 1, hts, hlen =>
    ReadAsPath.apply (callee.passed hc) callee.beginsPath (Expr.takenEach arguments ha) ts
      (budget + 1) hts hlen
  | .sequence items, ⟨htwo, hi⟩, ts, budget + 1, hts, hlen =>
    sequence_taken htwo (Expr.takenEach items hi) ts (budget + 1) hts hlen
  | .unary _ operand, ⟨hop, ho⟩, ts, budget + 1, hts, hlen =>
    unary_taken hop (operand.taken ho) ts (budget + 1) hts hlen
  | .binary _ left right, ⟨hop, hl, hr⟩, ts, budget + 1, hts, hlen =>
    binary_taken hop (left.taken hl) (right.taken hr) ts (budget + 1) hts hlen

theorem Expr.takenEach : ∀ es : List Expr, Expr.CanonicalAll es → Expr.TakenEach es
  | [], _ => .nil
  | e :: es, ⟨he, hes⟩ => .cons (ReadAsValue.expression (e.taken he)) (Expr.takenEach es hes)

end

/-- A written expression is taken. -/
theorem Expr.expression_takes {e : Expr} (he : e.Canonical) {ts : List Token} {budget : Nat}
    (hts : ts.map Token.lexeme = e.lexemes) (hlen : ts.length < budget) :
    (expression budget).Takes ts e (Clear (Token.Kind.Extends levels)) :=
  nested_of_value (e.taken he ts budget hts hlen) (by omega)

/-- A written variable is taken. -/
theorem Variable.variablePath_takes {v : Variable} (hv : v.Canonical) {ts : List Token}
    {budget : Nat} (hts : ts.map Token.lexeme = v.lexemes) (hlen : ts.length ≤ budget) :
    (variablePath budget).Takes ts v (Clear Token.Kind.MorePath) :=
  takes_of_passes (v.passed hv ts budget hts hlen) hlen

end ClearSilver
