/-
# What matches the forms of expressions is taken

The scripts of expressions take all tokens that match their forms, where the
budget is greater than their number and the next token does not carry the
expression on. A value is taken by induction on the budget; the operators of a
level are no operators of the tighter ones, so the operands end before them.

Key theorems: `Script.path_passes`, `Script.path_takes`, `Script.chained_takes`,
`Script.value_takes`, `Script.expression_takes`.
-/
import ClearSilver.Proofs.Parser.ExpressionPasses

namespace ClearSilver

theorem Token.Kind.Extends.mono {ls ls' : List BinaryLevel} {k : Token.Kind} (h : k.Extends ls)
    (hls : ∀ level ∈ ls, level ∈ ls') : k.Extends ls' := by
  rcases h with h | h | ⟨level, hl, hk⟩
  · exact .inl h
  · exact .inr (.inl h)
  · exact .inr (.inr ⟨level, hls level hl, hk⟩)

/-- The operators of a level of the grammar are those of the level of the
parser, and no tighter operators. -/
theorem levels_of_operators {n : Nat} {level : BinaryLevel} {s : Symbol} {others : List Symbol}
    (hl : levels[n]? = some level) (ho : operators[n]? = some (s, others)) :
    ∀ t ∈ s :: others, level.operator? (.symbol t) ≠ none ∧
      ¬ Token.Kind.Extends (levels.drop (n + 1)) (.symbol t) := by
  match n with
  | 0 | 1 | 2 | 3 | 4 | 5 =>
    cases hl
    cases ho
    decide
  | n + 6 => cases hl

namespace Script

open Form

variable {index operand v : Script Expr}

/-! ### Lists -/

/-- Does the script take all that matches the form, up to a number of tokens? -/
def Completes {α : Type} (s : Script α) (f : Form) (bound : Nat) (stop : Token.Kind → Prop) :
    Prop :=
  ∀ ts : List Token, f.Matches ts → ts.length < bound → ∃ a, s.Takes ts a (Clear stop)

theorem takesAll_of_matches {α : Type} {item : Script α} {f : Form} {bound : Nat}
    {stop : Token.Kind → Prop} (hi : item.Completes f bound stop) : ∀ {parts : List (List Token)},
    (∀ us ∈ parts, (both (symbol .comma) f).Matches us) → parts.flatten.length < bound →
      ∃ as : List α, TakesAll item stop parts.flatten as ∧ as.length ≤ parts.flatten.length
  | [], _, _ => ⟨[], .nil, Nat.le_refl _⟩
  | us :: parts, hparts, hlen => by
    obtain ⟨hus, hrest⟩ := List.forall_mem_cons.mp hparts
    obtain ⟨_, ws, rfl, hcomma, hws⟩ := matches_both.mp hus
    obtain ⟨tok, htok, rfl⟩ := matches_token.mp hcomma
    simp only [List.flatten_cons, List.length_append, List.length_singleton] at hlen
    obtain ⟨a, ha⟩ := hi ws hws (by omega)
    obtain ⟨as, has, hlas⟩ := takesAll_of_matches hi hrest (by omega)
    refine ⟨a :: as, .cons htok ha has, ?_⟩
    simp only [List.flatten_cons, List.length_append, List.length_cons]
    omega

theorem items_of_matches {α : Type} {item : Script α} {f : Form} {bound budget : Nat}
    {stop : Token.Kind → Prop} (hi : item.Completes f bound stop)
    (hcomma : ¬ stop (.symbol .comma)) {ts : List Token} (h : (separated f).Matches ts)
    (hlen : ts.length < bound) (hbudget : ts.length < budget) :
    ∃ as : List α, (items item budget).Takes ts as (Clear (MoreItems stop)) := by
  obtain ⟨us, vs, rfl, hus, hvs⟩ := matches_both.mp h
  obtain ⟨parts, rfl, hparts⟩ := matches_many.mp hvs
  rw [List.length_append] at hlen hbudget
  obtain ⟨a, ha⟩ := hi us hus (by omega)
  obtain ⟨as, has, hlas⟩ := takesAll_of_matches hi hparts (by omega)
  exact ⟨a :: as, items_takes hcomma ha has (by omega)⟩

/-- Does the script fail at a closing parenthesis? -/
def RejectsClose {α : Type} (s : Script α) : Prop :=
  ∀ (tok : Token) (ts : List Token), tok.kind = .symbol .rightParen →
    ∃ fault, s.feed (tok :: ts) = .failed fault

theorem RejectsClose.bind {α β : Type} {s : Script α} (h : s.RejectsClose) (k : α → Script β) :
    (s.bind k).RejectsClose := by
  intro tok ts htok
  obtain ⟨fault, hf⟩ := h tok ts htok
  exact ⟨fault, by rw [feed_bind, hf]; rfl⟩

theorem parenthesized_of_items {α : Type} {item : Script α} {budget : Nat}
    {stop : Token.Kind → Prop} (hstop : ¬ stop (.symbol .rightParen)) (hreject : item.RejectsClose)
    {us : List Token} {last : Token} {as : List α}
    (h : (items item budget).Takes us as (Clear (MoreItems stop)))
    (hlast : last.kind = .symbol .rightParen) :
    (parenthesized item budget).Takes (us ++ [last]) as anyRest := by
  have hend : Clear (MoreItems stop) [last] := by
    refine .cons ?_ _
    rw [hlast]
    rintro (h | h)
    · exact hstop h
    · cases h
  have hfeed := h [last] hend
  have hitems : (items item budget).RejectsClose := hreject.bind _
  cases us with
  | nil =>
    obtain ⟨fault, hf⟩ := hitems last [] hlast
    rw [List.nil_append, hf] at hfeed
    cases hfeed
  | cons tok us =>
    refine parenthesized_takes h (fun htok => ?_) hlast hstop
    obtain ⟨fault, hf⟩ := hitems tok (us ++ [last]) htok
    rw [List.cons_append, hf] at hfeed
    cases hfeed

theorem parenthesized_of_matches {α : Type} {item : Script α} {f : Form} {bound budget : Nat}
    {stop : Token.Kind → Prop} (hi : item.Completes f bound stop)
    (hcomma : ¬ stop (.symbol .comma)) (hstop : ¬ stop (.symbol .rightParen))
    (hreject : item.RejectsClose) {ts : List Token}
    (h : (both (optional (separated f)) (symbol .rightParen)).Matches ts)
    (hlen : ts.length ≤ bound) (hbudget : ts.length ≤ budget) :
    ∃ as : List α, (parenthesized item budget).Takes ts as anyRest := by
  obtain ⟨us, vs, rfl, hus, hvs⟩ := matches_both.mp h
  obtain ⟨last, hlast, rfl⟩ := matches_token.mp hvs
  rw [List.length_append, List.length_singleton] at hlen hbudget
  rcases matches_either.mp hus with hus | hus
  · obtain ⟨as, has⟩ := items_of_matches hi hcomma hus (by omega) (show us.length < budget by omega)
    exact ⟨as, parenthesized_of_items hstop hreject has hlast⟩
  · obtain rfl := matches_empty.mp hus
    exact ⟨[], parenthesized_nil hlast budget⟩

/-! ### Variables -/

theorem pathStep_of_matches {ts : List Token} (h : (phrase .name).Matches ts)
    (expected : Expectation) : ∃ v, (pathStep expected).Takes ts v anyRest := by
  rcases (matches_anyOf _ _).mp (matches_phrase.mp h) with h | ⟨f, hf, h⟩
  · obtain ⟨tok, htok, rfl⟩ := matches_token.mp h
    exact ⟨_, pathStep_word expected htok⟩
  · simp only [List.mem_cons, List.not_mem_nil, or_false] at hf
    rcases hf with rfl | rfl
    · obtain ⟨tok, htok, rfl⟩ := matches_token.mp h
      exact ⟨_, pathStep_decimal expected htok⟩
    · obtain ⟨tok, htok, rfl⟩ := matches_token.mp h
      exact ⟨_, pathStep_hex expected htok⟩

theorem pathStart_of_matches {ts : List Token}
    (h : (either (token .word) (both (symbol .dollar) (phrase .name))).Matches ts) :
    ∃ tok us v, ts = tok :: us ∧ (tok.kind = .word ∨ tok.kind = .symbol .dollar) ∧
      pathStart.Takes ts v anyRest := by
  rcases matches_either.mp h with h | h
  · obtain ⟨tok, htok, rfl⟩ := matches_token.mp h
    exact ⟨tok, [], _, rfl, .inl htok, pathStart_word htok⟩
  · obtain ⟨_, us, rfl, hdollar, hus⟩ := matches_both.mp h
    obtain ⟨tok, htok, rfl⟩ := matches_token.mp hdollar
    obtain ⟨v, hv⟩ := pathStep_of_matches hus .variableName
    exact ⟨tok, us, v, rfl, .inr htok, pathStart_dollar htok hv⟩

/-- What matches the parts behind a path is passed over, each part with one step. -/
theorem pathFrom_of_matches {bound : Nat}
    (hi : index.Completes Form.expression bound (Token.Kind.Extends levels)) :
    ∀ (parts : List (List Token)) (budget : Nat) (parent : Variable),
      (∀ us ∈ parts, pathMore.Matches us) → parts.flatten.length < bound → parts.length ≤ budget →
        ∃ v, (pathFrom index budget parent).Passes parts.flatten
          (pathFrom index (budget - parts.length) v) anyRest
  | [], _, parent, _, _, _ => ⟨parent, .refl _ _⟩
  | _ :: _, 0, _, _, _, hle => absurd hle (Nat.not_succ_le_zero _)
  | us :: parts, budget + 1, parent, hparts, hlen, hle => by
    obtain ⟨hus, hrest⟩ := List.forall_mem_cons.mp hparts
    rw [List.flatten_cons, List.length_append] at hlen
    rw [List.flatten_cons, List.length_cons, Nat.add_sub_add_right]
    have ih := fun parent => pathFrom_of_matches hi parts budget parent hrest (by omega)
      (Nat.le_of_succ_le_succ hle)
    rcases matches_either.mp hus with h | h
    · obtain ⟨_, ws, rfl, hdot, hws⟩ := matches_both.mp h
      obtain ⟨tok, htok, rfl⟩ := matches_token.mp hdot
      obtain ⟨child, hchild⟩ := pathStep_of_matches hws .nameAfterDot
      obtain ⟨v, hv⟩ := ih (.descend parent child)
      exact ⟨v, (pathFrom_dot budget parent htok hchild).trans hv fun _ _ => trivial⟩
    · obtain ⟨_, ws, rfl, hopen, hws⟩ := matches_both.mp h
      obtain ⟨es, _, rfl, hes, hclose⟩ := matches_both.mp hws
      obtain ⟨tok, htok, rfl⟩ := matches_token.mp hopen
      obtain ⟨last, hlast, rfl⟩ := matches_token.mp hclose
      simp only [List.length_append, List.length_singleton] at hlen
      obtain ⟨e, he⟩ := hi es hes (by omega)
      obtain ⟨v, hv⟩ := ih (.expand parent e)
      refine ⟨v, (pathFrom_index budget parent htok hlast he fun rest => .cons ?_ rest).trans hv
        fun _ _ => trivial⟩
      rw [hlast]
      decide

theorem length_le_flatten {α : Type} : ∀ {parts : List (List α)}, (∀ us ∈ parts, us ≠ []) →
    parts.length ≤ parts.flatten.length
  | [], _ => Nat.le_refl _
  | us :: parts, h => by
    obtain ⟨hus, hrest⟩ := List.forall_mem_cons.mp h
    have := length_le_flatten hrest
    have := List.length_pos_iff.mpr hus
    simp only [List.length_cons, List.flatten_cons, List.length_append]
    omega

theorem pathMore_ne_nil : ¬ pathMore.Matches [] := by
  intro h
  rcases matches_either.mp h with h | h
  · obtain ⟨_, ws, hts, hdot, -⟩ := matches_both.mp h
    obtain ⟨tok, -, rfl⟩ := matches_token.mp hdot
    cases hts
  · obtain ⟨_, ws, hts, hopen, -⟩ := matches_both.mp h
    obtain ⟨tok, -, rfl⟩ := matches_token.mp hopen
    cases hts

/-- What matches a path begins with a word or a dollar sign and is passed over,
up to what can go on behind it. -/
theorem path_passes {bound : Nat}
    (hi : index.Completes Form.expression bound (Token.Kind.Extends levels)) {ts : List Token}
    (h : (phrase .path).Matches ts) (hlen : ts.length ≤ bound) :
    ∃ tok us v, ts = tok :: us ∧ (tok.kind = .word ∨ tok.kind = .symbol .dollar) ∧
      ∃ b, bound < b + ts.length ∧
        (path index bound).Passes ts (pathFrom index b v) anyRest := by
  obtain ⟨us, vs, rfl, hus, hvs⟩ := matches_both.mp (matches_phrase.mp h)
  obtain ⟨parts, rfl, hparts⟩ := matches_many.mp hvs
  obtain ⟨tok, us, first, rfl, htok, hfirst⟩ := pathStart_of_matches hus
  simp only [List.length_append, List.length_cons] at hlen
  have hle := length_le_flatten fun us hus h => pathMore_ne_nil (h ▸ hparts us hus)
  obtain ⟨v, hv⟩ := pathFrom_of_matches hi parts bound first hparts (by omega) (by omega)
  refine ⟨tok, us ++ parts.flatten, v, rfl, htok, bound - parts.length, ?_,
    Takes.bind hfirst hv fun _ _ => trivial⟩
  simp only [List.length_append, List.length_cons]
  omega

/-- A path that is passed over is taken where nothing carries it on. -/
theorem takes_of_passes {v : Variable} {ts : List Token} {bound : Nat}
    (h : ∃ b, bound < b + ts.length ∧ (path index bound).Passes ts (pathFrom index b v) anyRest)
    (hlen : ts.length ≤ bound) :
    (path index bound).Takes ts v (Clear Token.Kind.MorePath) := by
  obtain ⟨b, hb, hpass⟩ := h
  obtain ⟨b, rfl⟩ : ∃ n, b = n + 1 := ⟨b - 1, by omega⟩
  have := hpass.trans (pathFrom_end b v) fun _ _ => trivial
  rwa [List.append_nil] at this

/-- What matches a path begins with a word or a dollar sign and is taken. -/
theorem path_takes {bound : Nat}
    (hi : index.Completes Form.expression bound (Token.Kind.Extends levels)) {ts : List Token}
    (h : (phrase .path).Matches ts) (hlen : ts.length ≤ bound) :
    ∃ tok us v, ts = tok :: us ∧ (tok.kind = .word ∨ tok.kind = .symbol .dollar) ∧
      (path index bound).Takes ts v (Clear Token.Kind.MorePath) := by
  obtain ⟨tok, us, v, hts, htok, hpass⟩ := path_passes hi h hlen
  exact ⟨tok, us, v, hts, htok, takes_of_passes hpass hlen⟩

/-! ### Chains of operators -/

theorem chainFrom_of_matches {level : BinaryLevel} {o f : Form} {ls : List BinaryLevel}
    {bound : Nat}
    (ho : ∀ us, o.Matches us → ∃ tok op, us = [tok] ∧ level.operator? tok.kind = some op ∧
      ¬ tok.kind.Extends ls) (hop : operand.Completes f bound (Token.Kind.Extends ls)) :
    ∀ (parts : List (List Token)) (budget : Nat) (left : Expr),
      (∀ us ∈ parts, (both o f).Matches us) → parts.flatten.length < bound → parts.length < budget →
        ∃ e, (chainFrom level operand budget left).Takes parts.flatten e
          (Clear (Token.Kind.Extends (level :: ls)))
  | _, 0, _, _, _, hlt => absurd hlt (Nat.not_lt_zero _)
  | [], budget + 1, left, _, _, _ => by
    refine ⟨left, (chainFrom_end level budget left).weaken fun rest h => h.weaken fun k hk => ?_⟩
    exact .inr (.inr ⟨level, List.mem_cons_self, hk⟩)
  | us :: parts, budget + 1, left, hparts, hlen, hlt => by
    obtain ⟨hus, hrest⟩ := List.forall_mem_cons.mp hparts
    rw [List.flatten_cons, List.length_append] at hlen
    obtain ⟨xs, ws, rfl, hxs, hws⟩ := matches_both.mp hus
    obtain ⟨tok, op, rfl, htok, -⟩ := ho xs hxs
    rw [List.length_append] at hlen
    obtain ⟨right, hright⟩ := hop ws hws (by omega)
    obtain ⟨e, he⟩ := chainFrom_of_matches ho hop parts budget (.binary op left right) hrest
      (by omega) (Nat.lt_of_succ_lt_succ hlt)
    refine ⟨e, (chainFrom_more budget left htok hright).trans he fun rest h => ?_⟩
    -- the operand ends before the next operator, or where the chain does
    cases parts with
    | nil => exact h.weaken fun k hk => hk.mono fun _ => List.mem_cons_of_mem _
    | cons vs parts =>
      obtain ⟨ys, zs, rfl, hys, -⟩ := matches_both.mp (hrest vs List.mem_cons_self)
      obtain ⟨tok', op', rfl, -, hno⟩ := ho ys hys
      exact .cons hno _

theorem both_ne_nil {o f : Form} (ho : ∀ us, o.Matches us → us ≠ []) : ¬ (both o f).Matches [] := by
  intro h
  obtain ⟨us, vs, hts, hus, -⟩ := matches_both.mp h
  exact ho us hus (List.append_eq_nil_iff.mp hts.symm).1

/-- An operator of a level of the grammar is one of the level of the parser. -/
theorem operator_of_matches {n : Nat} {level : BinaryLevel} {s : Symbol} {others : List Symbol}
    (hl : levels[n]? = some level) (hos : operators[n]? = some (s, others)) {us : List Token}
    (hus : (anyOf (symbol s) (others.map symbol)).Matches us) :
    ∃ tok op, us = [tok] ∧ level.operator? tok.kind = some op ∧
      ¬ tok.kind.Extends (levels.drop (n + 1)) := by
  obtain ⟨t, ht, hus⟩ : ∃ t ∈ s :: others, (symbol t).Matches us := by
    rcases (matches_anyOf _ _).mp hus with hus | ⟨f, hf, hus⟩
    · exact ⟨s, List.mem_cons_self, hus⟩
    · obtain ⟨t, ht, rfl⟩ := List.mem_map.mp hf
      exact ⟨t, List.mem_cons_of_mem _ ht, hus⟩
  obtain ⟨tok, htok, rfl⟩ := matches_token.mp hus
  obtain ⟨hsome, hno⟩ := levels_of_operators hl hos t ht
  obtain ⟨op, hop⟩ := Option.ne_none_iff_exists'.mp hsome
  exact ⟨tok, op, rfl, by rw [htok, hop], by rw [htok]; exact hno⟩

theorem chained_takes {bound : Nat}
    (hv : v.Completes (phrase .value) bound (Token.Kind.Extends [])) :
    ∀ (ls : List BinaryLevel) (n : Nat), levels.drop n = ls →
      (chained v bound ls).Completes (phrase (.level n)) bound (Token.Kind.Extends ls)
  | [], n, hn => by
    intro ts h hlen
    have ho := operators_of_drop_eq_nil hn
    have h := matches_phrase.mp h
    rw [Phrase.form, ho] at h
    exact hv ts h hlen
  | level :: ls, n, hn => by
    intro ts h hlen
    obtain ⟨hl, hls⟩ := levels_of_drop_eq_cons hn
    obtain ⟨s, others, hos, -⟩ := operators_of_levels hl
    have ho := fun us (hus : (anyOf (symbol s) (others.map symbol)).Matches us) =>
      operator_of_matches hl hos hus
    rw [hls] at ho
    have hop := chained_takes hv ls (n + 1) hls
    have h := matches_phrase.mp h
    rw [Phrase.form, hos] at h
    obtain ⟨us, vs, rfl, hus, hvs⟩ := matches_both.mp h
    obtain ⟨parts, rfl, hparts⟩ := matches_many.mp hvs
    have hle := length_le_flatten fun us hus (h : us = []) =>
      both_ne_nil (fun ws hws => by obtain ⟨tok, op, rfl, -⟩ := ho ws hws; simp) (h ▸ hparts us hus)
    rw [List.length_append] at hlen
    obtain ⟨first, hfirst⟩ := hop us hus (by omega)
    obtain ⟨e, he⟩ := chainFrom_of_matches ho hop parts bound first hparts (by omega) (by omega)
    refine ⟨e, Takes.bind hfirst he fun rest hrest => ?_⟩
    cases parts with
    | nil => exact Clear.weaken hrest fun k hk => hk.mono fun _ => List.mem_cons_of_mem _
    | cons vs parts =>
      obtain ⟨ys, zs, rfl, hys, -⟩ := matches_both.mp (hparts vs List.mem_cons_self)
      obtain ⟨tok', op', rfl, -, hno⟩ := ho ys hys
      exact .cons hno _

/-! ### Values -/

theorem value_rejectsClose : ∀ budget : Nat, (value budget).RejectsClose
  | 0 => fun _ _ _ => ⟨.exhausted, rfl⟩
  | budget + 1 => by
    intro tok ts htok
    refine ⟨.unexpected .expression tok, ?_⟩
    unfold value
    refine (feed_look _ tok ts).trans ?_
    simp only [bind, htok]
    rfl

theorem chained_rejectsClose (h : v.RejectsClose) (budget : Nat) :
    ∀ ls : List BinaryLevel, (chained v budget ls).RejectsClose
  | [] => h
  | _ :: ls => (chained_rejectsClose h budget ls).bind _

theorem path_rejectsClose (index : Script Expr) (budget : Nat) :
    (path index budget).RejectsClose := by
  refine RejectsClose.bind (fun tok ts htok => ⟨.unexpected .variableName tok, ?_⟩) _
  refine (feed_accept _ _ _ _).trans ?_
  rw [if_neg (by simp [htok])]
  simp only [Bind.bind, expect, bind, feed, List.getElem?_cons_zero, htok]
  rfl

theorem number_of_matches {ts : List Token}
    (h : (both (optional (either (symbol .plus) (symbol .minus)))
    (either (token .decimal) (token .hex))).Matches ts) : ∃ tok us e, ts = tok :: us ∧
      tok.kind ∈ [.decimal, .hex, .symbol .plus, .symbol .minus] ∧ number.Takes ts e anyRest := by
  obtain ⟨us, vs, rfl, hus, hvs⟩ := matches_both.mp h
  have hnumeral : ∃ tok, vs = [tok] ∧ (tok.kind = .decimal ∨ tok.kind = .hex) ∧
      ∀ sign, ∃ e, (numeral sign).Takes [tok] e anyRest := by
    rcases matches_either.mp hvs with hvs | hvs
    · obtain ⟨tok, htok, rfl⟩ := matches_token.mp hvs
      exact ⟨tok, rfl, .inl htok, fun sign => ⟨_, numeral_decimal sign htok⟩⟩
    · obtain ⟨tok, htok, rfl⟩ := matches_token.mp hvs
      exact ⟨tok, rfl, .inr htok, fun sign => ⟨_, numeral_hex sign htok⟩⟩
  obtain ⟨last, rfl, hlast, htakes⟩ := hnumeral
  rcases matches_either.mp hus with hus | hus
  · obtain ⟨tok, rfl, htok⟩ : ∃ tok, us = [tok] ∧
        (tok.kind = .symbol .plus ∨ tok.kind = .symbol .minus) := by
      rcases matches_either.mp hus with hus | hus
      · obtain ⟨tok, htok, rfl⟩ := matches_token.mp hus
        exact ⟨tok, rfl, .inl htok⟩
      · obtain ⟨tok, htok, rfl⟩ := matches_token.mp hus
        exact ⟨tok, rfl, .inr htok⟩
    obtain ⟨e, he⟩ := htakes (some tok)
    refine ⟨tok, [last], e, rfl, ?_, number_signed htok he⟩
    rcases htok with h | h <;> simp [h]
  · obtain rfl := matches_empty.mp hus
    obtain ⟨e, he⟩ := htakes none
    refine ⟨last, [], e, rfl, ?_, number_unsigned hlast he⟩
    rcases hlast with h | h <;> simp [h]

theorem reference_of_matches {bound : Nat}
    (hi : index.Completes Form.expression bound (Token.Kind.Extends levels))
    (hreject : index.RejectsClose) {ts : List Token}
    (h : (both (phrase .path) (optional (sequence
      [symbol .leftParen, optional (separated Form.expression), symbol .rightParen]))).Matches ts)
    (hlen : ts.length ≤ bound) :
    ∃ tok us e, ts = tok :: us ∧ (tok.kind = .word ∨ tok.kind = .symbol .dollar) ∧
      (reference index bound).Takes ts e (Clear (Token.Kind.Extends [])) := by
  obtain ⟨us, vs, rfl, hus, hvs⟩ := matches_both.mp h
  rw [List.length_append] at hlen
  obtain ⟨tok, us, path, rfl, htok, hpath⟩ := path_takes hi hus (by omega)
  rcases matches_either.mp hvs with hvs | hvs
  · obtain ⟨_, ws, rfl, hopen, hws⟩ := matches_both.mp hvs
    obtain ⟨first, hfirst, rfl⟩ := matches_token.mp hopen
    rw [List.length_append, List.length_singleton] at hlen
    obtain ⟨es, hes⟩ := parenthesized_of_matches hi (by decide) (by decide) hreject hws (by omega)
      (show ws.length ≤ bound by omega)
    exact ⟨tok, us ++ first :: ws, .apply path es, rfl, htok,
      (reference_apply hpath hfirst hes).weaken fun _ _ => trivial⟩
  · obtain rfl := matches_empty.mp hvs
    rw [List.append_nil]
    exact ⟨tok, us, .lookup path, rfl, htok, reference_lookup hpath⟩

/-- A list of expressions ends at a closing parenthesis. -/
theorem clear_rightParen {last : Token} (hlast : last.kind = .symbol .rightParen)
    (rest : List Token) : Clear (MoreItems (Token.Kind.Extends levels)) (last :: rest) := by
  refine .cons ?_ rest
  rw [hlast]
  rintro (h | h)
  · exact absurd h (by decide)
  · cases h

/-- **What matches a value is taken**, with a budget greater than its tokens. -/
theorem value_takes : ∀ budget : Nat,
    (value budget).Completes (phrase .value) budget (Token.Kind.Extends [])
  | 0 => fun _ _ hlt => absurd hlt (Nat.not_lt_zero _)
  | budget + 1 => by
    have ih := value_takes budget
    have hn : (nested budget).Completes Form.expression budget (Token.Kind.Extends levels) :=
      chained_takes ih levels 0 rfl
    have hreject : (nested budget).RejectsClose :=
      chained_rejectsClose (value_rejectsClose budget) budget levels
    intro ts h hlt
    rcases (matches_anyOf _ _).mp (matches_phrase.mp h) with h | ⟨f, hf, h⟩
    · obtain ⟨tok, us, e, rfl, htok, he⟩ := reference_of_matches hn hreject h (by omega)
      exact ⟨e, value_reference htok he⟩
    simp only [List.mem_cons, List.not_mem_nil, or_false] at hf
    rcases hf with rfl | rfl | rfl | rfl
    · obtain ⟨tok, htok, rfl⟩ := matches_token.mp h
      exact ⟨_, (value_string htok).weaken fun _ _ => trivial⟩
    · obtain ⟨tok, us, e, rfl, htok, he⟩ := number_of_matches h
      exact ⟨e, (value_number htok he).weaken fun _ _ => trivial⟩
    · obtain ⟨xs, us, rfl, hxs, hus⟩ := matches_both.mp h
      obtain ⟨tok, s, op, rfl, htok, hop⟩ : ∃ tok s op, xs = [tok] ∧ tok.kind = .symbol s ∧
          prefixOp? s = some op := by
        rcases (matches_anyOf _ _).mp hxs with hxs | ⟨f, hf, hxs⟩
        · obtain ⟨tok, htok, rfl⟩ := matches_token.mp hxs
          exact ⟨tok, .hash, .numeric, rfl, htok, rfl⟩
        · simp only [List.mem_cons, List.not_mem_nil, or_false] at hf
          rcases hf with rfl | rfl
          · obtain ⟨tok, htok, rfl⟩ := matches_token.mp hxs
            exact ⟨tok, .bang, .not, rfl, htok, rfl⟩
          · obtain ⟨tok, htok, rfl⟩ := matches_token.mp hxs
            exact ⟨tok, .question, .exist, rfl, htok, rfl⟩
      rw [List.length_append, List.length_singleton] at hlt
      obtain ⟨e, he⟩ := ih us hus (by omega)
      exact ⟨.unary op e, value_prefixed hop htok he⟩
    · obtain ⟨xs, ws, rfl, hopen, hws⟩ := matches_both.mp h
      obtain ⟨us, ys, rfl, hus, hclose⟩ := matches_both.mp hws
      obtain ⟨tok, htok, rfl⟩ := matches_token.mp hopen
      obtain ⟨last, hlast, rfl⟩ := matches_token.mp hclose
      simp only [List.length_append, List.length_singleton] at hlt
      obtain ⟨es, hes⟩ := items_of_matches hn (by decide) hus (by omega)
        (show us.length < budget by omega)
      exact ⟨grouped es, (value_group htok hlast hes (clear_rightParen hlast)).weaken
        fun _ _ => trivial⟩

/-- **What matches an expression is taken.** -/
theorem expression_takes (budget : Nat) :
    (expression budget).Completes Form.expression budget (Token.Kind.Extends levels) :=
  chained_takes (value_takes budget) levels 0 rfl

theorem expression_rejectsClose (budget : Nat) : (expression budget).RejectsClose :=
  chained_rejectsClose (value_rejectsClose budget) budget levels

/-- What matches a variable is taken. -/
theorem variablePath_takes (budget : Nat) :
    (variablePath budget).Completes (phrase .path) budget Token.Kind.MorePath := by
  intro ts h hlt
  obtain ⟨_, _, v, -, -, hv⟩ := path_takes (expression_takes budget) h (Nat.le_of_lt hlt)
  exact ⟨v, hv⟩

end Script
end ClearSilver
