/-
# How operators group their operands

Operands with binary operators between them are grouped at the last of the
loosest operators: what stands before it is its left operand, and what stands
behind it the right one (`SplitsTo`). There is one such tree
(`SplitsTo.unique`). The chains of operators give it (`Script.chained_splits`):
a chain cuts the operators at those of its own level, reads what is between them
with the chain of the tighter levels, and applies each operator to the tree of
all that stands before it, so the operator applied last is the last one of the
loosest.

Key definitions: `BinaryOp.tightness`, `SplitsTo`, `Script.TakesOperations`.
Key theorems: `SplitsTo.unique`, `Script.chainFrom_splits`,
`Script.chained_splits`, `Script.expression_splits`.
-/
import ClearSilver.Proofs.Parser.ExpressionTakes

namespace ClearSilver

/-- How tight an operator binds, the loosest being 0. Those that have no symbol
come last. -/
def BinaryOp.tightness : BinaryOp → Nat
  | .or => 0
  | .and => 1
  | .eq | .ne => 2
  | .lt | .gt | .lte | .gte => 3
  | .add | .subtract => 4
  | .multiply | .divide | .modulo => 5
  | .numericEq | .numericNe | .numericAdd | .comma => 6

/-- An operator and its right operand. -/
abbrev Operation := BinaryOp × Expr

/-- Is this the tree of an operand and the operations behind it? An operand
alone is its own tree. Otherwise the tree is split at an operator: no looser one
stands before it, and only tighter ones stand behind it. -/
inductive SplitsTo : Expr → List Operation → Expr → Prop
  | operand (e : Expr) : SplitsTo e [] e
  | split {first e left right : Expr} {before after : List Operation} {op : BinaryOp}
      (hbefore : ∀ p ∈ before, op.tightness ≤ p.1.tightness)
      (hafter : ∀ p ∈ after, op.tightness < p.1.tightness)
      (hleft : SplitsTo first before left) (hright : SplitsTo e after right) :
      SplitsTo first (before ++ (op, e) :: after) (.binary op left right)

namespace SplitsTo

variable {first e e' t t' : Expr} {ops before after before' after' : List Operation}
  {op op' : BinaryOp}

/-- The last of the loosest operators is at one place. -/
theorem split_eq (h : before ++ (op, e) :: after = before' ++ (op', e') :: after')
    (hbefore : ∀ p ∈ before, op.tightness ≤ p.1.tightness)
    (hafter : ∀ p ∈ after, op.tightness < p.1.tightness)
    (hbefore' : ∀ p ∈ before', op'.tightness ≤ p.1.tightness)
    (hafter' : ∀ p ∈ after', op'.tightness < p.1.tightness) :
    before = before' ∧ op = op' ∧ e = e' ∧ after = after' := by
  rcases List.append_eq_append_iff.mp h with ⟨more, rfl, hmore⟩ | ⟨more, rfl, hmore⟩
  · cases more with
    | nil => simp_all
    | cons p more =>
      -- the second operator would stand behind the first and be no looser
      obtain ⟨rfl, rfl⟩ := List.cons_eq_cons.mp hmore
      have hle : op'.tightness ≤ op.tightness := hbefore' (op, e) (by simp)
      have hlt : op.tightness < op'.tightness := hafter (op', e') (by simp)
      omega
  · cases more with
    | nil => simp_all
    | cons p more =>
      obtain ⟨rfl, rfl⟩ := List.cons_eq_cons.mp hmore
      have hle : op.tightness ≤ op'.tightness := hbefore (op', e') (by simp)
      have hlt : op'.tightness < op.tightness := hafter' (op, e) (by simp)
      omega

/-- **There is one tree** that is split so. -/
theorem unique (h : SplitsTo first ops t) (h' : SplitsTo first ops t') : t = t' := by
  induction h generalizing t' with
  | operand e =>
    generalize hops : ([] : List Operation) = ops at h'
    cases h' with
    | operand => rfl
    | split => simp at hops
  | @split first e left right before after op hbefore hafter _ _ ihleft ihright =>
    generalize hops : before ++ (op, e) :: after = ops at h'
    cases h' with
    | operand => simp at hops
    | split hbefore' hafter' hleft' hright' =>
      obtain ⟨rfl, rfl, rfl, rfl⟩ := split_eq hops hbefore hafter hbefore' hafter'
      rw [ihleft hleft', ihright hright']

end SplitsTo

/-! ### Operators and levels -/

theorem BinaryOp.tightness_lt {op : BinaryOp} {s : Symbol} (hs : op.symbol? = some s) :
    op.tightness < levels.length := by
  cases op <;> cases hs <;> decide

/-- An operator is one of the level that its tightness says, and no tighter one. -/
theorem BinaryOp.operator?_level {op : BinaryOp} {s : Symbol} {n : Nat} {level : BinaryLevel}
    (hs : op.symbol? = some s) (hn : op.tightness = n) (hl : levels[n]? = some level) :
    level.operator? (.symbol s) = some op ∧
      ¬ Token.Kind.Extends (levels.drop (n + 1)) (.symbol s) := by
  subst hn
  cases op <;> cases hs <;> cases hl <;> decide

/-- The operations up to the first one that is not tighter. -/
theorem exists_tighter (n : Nat) : ∀ ops : List Operation, (∀ p ∈ ops, n ≤ p.1.tightness) →
    ∃ inner more, ops = inner ++ more ∧ (∀ p ∈ inner, n < p.1.tightness) ∧
      ∀ p ∈ more.head?, p.1.tightness = n
  | [], _ => ⟨[], [], rfl, by simp, by simp⟩
  | p :: ops, h => by
    obtain ⟨hp, hops⟩ := List.forall_mem_cons.mp h
    rcases Nat.lt_or_eq_of_le hp with hlt | heq
    · obtain ⟨inner, more, rfl, hinner, hmore⟩ := exists_tighter n ops hops
      exact ⟨p :: inner, more, rfl, List.forall_mem_cons.mpr ⟨hlt, hinner⟩, hmore⟩
    · exact ⟨[], p :: ops, rfl, by simp, by simp [heq]⟩

namespace Script

variable {v : Script Expr} {ts us : List Token} {ops ops' : List Operation} {e : Expr}

/-- Tokens that are operators, each with a value behind it. -/
inductive TakesOperations (v : Script Expr) : List Token → List Operation → Prop
  | nil : TakesOperations v [] []
  | cons {tok : Token} {us ts : List Token} {op : BinaryOp} {s : Symbol} {e : Expr}
      {ops : List Operation} (hs : op.symbol? = some s) (htok : tok.kind = .symbol s)
      (h : v.Takes us e (Clear (Token.Kind.Extends []))) (hops : TakesOperations v ts ops) :
      TakesOperations v (tok :: us ++ ts) ((op, e) :: ops)

namespace TakesOperations

theorem length_le (h : TakesOperations v ts ops) : ops.length ≤ ts.length := by
  induction h with
  | nil => exact Nat.le_refl _
  | cons _ _ _ _ ih =>
    simp only [List.length_cons, List.length_append, List.cons_append]
    omega

theorem split : ∀ {ops : List Operation} {ts : List Token}, TakesOperations v ts (ops ++ ops') →
    ∃ us vs, ts = us ++ vs ∧ TakesOperations v us ops ∧ TakesOperations v vs ops'
  | [], ts, h => ⟨[], ts, rfl, .nil, h⟩
  | _ :: _, _, .cons hs htok h hops => by
    obtain ⟨us, vs, rfl, hus, hvs⟩ := hops.split
    exact ⟨_, vs, by rw [List.append_assoc], .cons hs htok h hus, hvs⟩

/-- What is read at tighter levels ends before an operator of a level. -/
theorem clear {n : Nat} (h : TakesOperations v ts ops) (hn : n < levels.length)
    (hhead : ∀ p ∈ ops.head?, p.1.tightness = n) {rest : List Token}
    (hrest : Clear (Token.Kind.Extends (levels.drop n)) rest) :
    Clear (Token.Kind.Extends (levels.drop (n + 1))) (ts ++ rest) := by
  cases h with
  | nil =>
    refine Clear.weaken hrest fun k hk => hk.mono fun level hlevel => ?_
    rw [← List.tail_drop] at hlevel
    exact List.mem_of_mem_tail hlevel
  | @cons tok _ _ op s _ _ hs htok _ _ =>
    have hno := (BinaryOp.operator?_level hs (hhead (op, _) rfl) (List.getElem?_eq_getElem hn)).2
    exact .cons (by rwa [htok]) _

end TakesOperations

section

variable {bound n : Nat} {level : BinaryLevel} {tighter : List BinaryLevel}

/-- Do the levels take a value and operations that are not looser for the tree
that is split at the last of the loosest? -/
def ChainSplits (v : Script Expr) (bound n : Nat) (ls : List BinaryLevel) : Prop :=
  ∀ (us ts : List Token) (e : Expr) (ops : List Operation),
    v.Takes us e (Clear (Token.Kind.Extends [])) → TakesOperations v ts ops →
      (∀ p ∈ ops, n ≤ p.1.tightness) → ops.length < bound →
        ∃ t, (chained v bound ls).Takes (us ++ ts) t (Clear (Token.Kind.Extends ls)) ∧
          SplitsTo e ops t

/-- **The operators of a level** are applied one after the other, each to the
tree of what stands before it and to that of the tighter operations behind it. -/
theorem chainFrom_splits (hl : levels.drop n = level :: tighter)
    (htighter : ChainSplits v bound (n + 1) tighter) {first : Expr} :
    ∀ (ops : List Operation) {ts : List Token} {budget : Nat} {left : Expr}
      {before : List Operation}, TakesOperations v ts ops → (∀ p ∈ ops, n ≤ p.1.tightness) →
        (∀ p ∈ ops.head?, p.1.tightness = n) → ops.length < budget → budget ≤ bound →
        (∀ p ∈ before, n ≤ p.1.tightness) → SplitsTo first before left →
          ∃ t, (chainFrom level (chained v bound tighter) budget left).Takes ts t
              (Clear (Token.Kind.Extends (level :: tighter))) ∧ SplitsTo first (before ++ ops) t
  | [], _, budget + 1, left, before, .nil, _, _, _, _, _, hleft => by
    refine ⟨left, (chainFrom_end level budget left).weaken fun rest h => h.weaken fun k hk => ?_,
      by rwa [List.append_nil]⟩
    exact .inr (.inr ⟨level, List.mem_cons_self, hk⟩)
  | (op, e) :: ops, _, budget + 1, left, before, .cons hs htok hvalue hops, hle, hhead, hlt, hbound,
      hbefore, hleft => by
    obtain ⟨hlevel, htail⟩ := levels_of_drop_eq_cons hl
    obtain ⟨hop, hrest⟩ := List.forall_mem_cons.mp hle
    have hn : op.tightness = n := hhead (op, e) rfl
    -- the right operand goes on up to the next operator of the level
    obtain ⟨inner, more, hcut, hinner, hmore⟩ := exists_tighter n ops hrest
    have hlen : ops.length = inner.length + more.length := by rw [hcut, List.length_append]
    rw [hcut] at hops hrest ⊢
    obtain ⟨us, vs, rfl, hus, hvs⟩ := hops.split
    rw [List.length_cons] at hlt
    obtain ⟨right, hright, hsplit⟩ := htighter _ _ _ _ hvalue hus hinner (by omega)
    have hchained : SplitsTo first (before ++ (op, e) :: inner) (.binary op left right) :=
      .split (by rwa [hn]) (by rwa [hn]) hleft hsplit
    have hall : ∀ p ∈ before ++ (op, e) :: inner, n ≤ p.1.tightness :=
      List.forall_mem_append.mpr
        ⟨hbefore, List.forall_mem_cons.mpr ⟨hop, fun p hp => Nat.le_of_lt (hinner p hp)⟩⟩
    obtain ⟨t, ht, htree⟩ := chainFrom_splits hl htighter more hvs
      (fun p hp => hrest p (List.mem_append_right _ hp)) hmore (show more.length < budget by omega)
      (by omega) hall hchained
    refine ⟨t, ?_, by simpa only [List.append_assoc, List.cons_append] using htree⟩
    rw [List.cons_append, ← List.append_assoc, ← List.cons_append]
    refine (chainFrom_more budget left (by rw [htok]; exact (BinaryOp.operator?_level hs hn hlevel).1)
      hright).trans ht fun rest h => ?_
    rw [← hl] at h
    rw [← htail]
    exact hvs.clear (hn ▸ BinaryOp.tightness_lt hs) hmore h
  termination_by ops => ops.length
  decreasing_by simp only [List.length_cons]; omega

/-- **The levels split at the last of the loosest operators.** -/
theorem chained_splits : ∀ (ls : List BinaryLevel) (n : Nat), levels.drop n = ls →
    ChainSplits v bound n ls
  | [], n, hn => by
    intro us ts e ops hv hops hle _
    have hlen : levels.length ≤ n := List.drop_eq_nil_iff.mp hn
    cases hops with
    | nil => exact ⟨e, by rw [List.append_nil]; exact hv, .operand e⟩
    | @cons _ _ _ op _ _ _ hs _ _ _ =>
      have hlt := BinaryOp.tightness_lt hs
      have hge : n ≤ op.tightness := (List.forall_mem_cons.mp hle).1
      omega
  | level :: tighter, n, hn => by
    intro us ts e ops hv hops hle hlt
    obtain ⟨hlevel, htail⟩ := levels_of_drop_eq_cons hn
    have htighter : ChainSplits v bound (n + 1) tighter := chained_splits tighter (n + 1) htail
    obtain ⟨inner, more, rfl, hinner, hmore⟩ := exists_tighter n ops hle
    obtain ⟨vs, ws, rfl, hvs, hws⟩ := hops.split
    rw [List.length_append] at hlt
    obtain ⟨left, hleft, hsplit⟩ := htighter _ _ _ _ hv hvs hinner (by omega)
    obtain ⟨t, ht, htree⟩ := chainFrom_splits hn htighter more hws
      (fun p hp => hle p (List.mem_append_right _ hp)) hmore (show more.length < bound by omega)
      (Nat.le_refl _) (fun p hp => Nat.le_of_lt (hinner p hp)) hsplit
    refine ⟨t, ?_, htree⟩
    rw [← List.append_assoc]
    refine Takes.bind hleft ht fun rest h => ?_
    rw [← hn] at h
    rw [← htail]
    exact hws.clear (List.getElem?_eq_some_iff.mp hlevel).1 hmore h

/-- **An expression is split at the last of its loosest operators.** -/
theorem expression_splits {budget : Nat}
    (hv : (value budget).Takes us e (Clear (Token.Kind.Extends [])))
    (hops : TakesOperations (value budget) ts ops) (hlt : ops.length < budget) :
    ∃ t, (expression budget).Takes (us ++ ts) t (Clear (Token.Kind.Extends levels)) ∧
      SplitsTo e ops t :=
  chained_splits levels 0 rfl _ _ _ _ hv hops (fun _ _ => Nat.zero_le _) hlt

end

end Script
end ClearSilver
