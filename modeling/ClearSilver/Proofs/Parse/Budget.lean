/-
# The budget of a parse

Every parse comes to an end, whatever its source, and the budget has no part in
how: with any budget greater than the number of its tokens a run ends, after
some steps, with one outcome, which is never that the budget is spent
(`parse_settles`).

A script lasts longer than the tokens that decide its run, and goes the same way
with a greater budget. So the least budget that is enough already gives the
outcome of all others.

Key definitions: `Script.Settles`.
Key theorems: `Script.settles_run`, `parse_settles`.
-/
import ClearSilver.Proofs.Parse.Bare
import ClearSilver.Proofs.Parse.Formatting
import ClearSilver.Proofs.Script.Moments

namespace ClearSilver

namespace Script

variable {α : Type}

/-- Does the run of the script over a scanner end, after some steps, with this
outcome, whatever budget it has that is greater than the number of tokens of
the scanner? -/
def Settles (script : Nat → Script α) (s : Scanner) (o : Except Fault α) : Prop :=
  ∀ budget, s.drain.1.length < budget →
    ∃ m last, Moment.Reaches ⟨script budget, [], .start s⟩ m ∧ m.next = .ends o last

/-- What is alike on the same tokens, with the same result, ends in one way. -/
theorem OutcomesAlike.eq {Q : α → α → Prop} (hQ : ∀ a a', Q a a' → a = a')
    {o o' : Except Fault α} (h : OutcomesAlike Eq Q Eq o o') : o = o' := by
  cases h with
  | gave h => rw [hQ _ _ h]
  | failed hf => rw [hf.eq]
  | stopped hF => rw [hF]

/-- **A run settles** on its outcome if its budget is enough: if the script lasts
as many tokens as its budget says, goes the same way with a greater one, and
waits behind the last token only for one that cannot be pulled. -/
theorem settles_run {script : Nat → Script α} {Q : α → α → Prop}
    (hlasts : ∀ budget, (script budget).Lasts budget)
    (halike : ∀ {budget budget' : Nat}, budget ≤ budget' →
      Alike Eq Q (script budget) (script budget'))
    (hQ : ∀ a a', Q a a' → a = a') {s src : Scanner} (hp : Pulls s s.drain.1 src) {enough : Nat}
    (hlt : s.drain.1.length < enough)
    (hwaits : (script enough).feed s.drain.1 = .waiting → ∃ fault, src.next = (.error fault, src)) :
    Settles script s ((script enough).run (.start s)).outcome := by
  -- the least budget that is enough goes the way of all others
  have hfeeds : ∀ {budget : Nat}, s.drain.1.length < budget →
      ((script (s.drain.1.length + 1)).feed s.drain.1).Alike Eq Q
        ((script budget).feed s.drain.1) :=
    fun hbudget => halike hbudget _ _ (List.forall₂_same.mpr fun _ _ => rfl)
  have hleast : (script (s.drain.1.length + 1)).feed s.drain.1 = .waiting →
      ∃ fault, src.next = (.error fault, src) := by
    intro hw
    have hfeed := hfeeds hlt
    rw [hw] at hfeed
    generalize hfed : (script enough).feed s.drain.1 = fed at hfeed
    cases hfeed with
    | waiting => exact hwaits hfed
  have houtcome : ∀ {budget : Nat}, s.drain.1.length < budget →
      ((script (s.drain.1.length + 1)).run (.start s)).outcome =
        ((script budget).run (.start s)).outcome := by
    intro budget hbudget
    refine OutcomesAlike.eq hQ ((hfeeds hbudget).run hp hp (hlasts _ _ (Nat.lt_succ_self _)) ?_)
    intro hw
    obtain ⟨fault, hn⟩ := hleast hw
    exact ⟨fault, fault, src, src, rfl, hn, hn⟩
  intro budget hbudget
  obtain ⟨m, last, hreaches, hends, -, -⟩ := run_reaches (script budget) [] (.start s)
  refine ⟨m, last, hreaches, ?_⟩
  rw [← houtcome hlt, houtcome hbudget]
  exact hends

theorem wholeExpression_alike {R : Token → Token → Prop} (hR : SameKept R) {budget budget' : Nat}
    (hle : budget ≤ budget') : Alike R Eq (wholeExpression budget) (wholeExpression budget') :=
  .bind_same (expression_alike hR hle) fun _ =>
    (Alike.expect hR.kinds _ (.same _)).map fun _ _ _ => rfl

end Script

theorem templateRun_settles (source : Text) :
    Script.Settles (.template (.among (lineStarts source))) (.start source .content)
      (templateRun source).outcome := by
  obtain ⟨src, hdecides⟩ := decides_drain source
  refine Script.settles_run (Script.template_lasts _)
    (fun hle => Script.template_alike (likewise_refl _) hle) (fun c c' hc => ?_) hdecides.pulls
    (Nat.lt_succ_of_le (Scanner.start source .content).length_drain_le) hdecides.waits
  rw [← c.relocate_id, ← c'.relocate_id]
  exact hc

theorem expressionRun_settles (source : Text) :
    Script.Settles .wholeExpression (.start source .arguments) (expressionRun source).outcome := by
  obtain ⟨src, hp, -, hwaits⟩ := decides_drain_expression source
  exact Script.settles_run Script.wholeExpression_lasts
    (fun hle => Script.wholeExpression_alike (likewise_refl (.among [])).toSameKept hle)
    (fun _ _ he => he) hp
    (Nat.lt_succ_of_le (Scanner.start source .arguments).length_drain_le) hwaits

/-- **Parsing comes to an end.** For every source there is an outcome, a tree or
a fault other than a budget that is spent, that the run of the template grammar
reaches after some steps with any budget greater than the number of its tokens,
and it is the outcome of the parse. The same holds for bare expressions. -/
theorem parse_settles (source name : Text) :
    (∃ o, o ≠ .error .exhausted ∧
      Script.Settles (.template (.among (lineStarts source))) (.start source .content) o ∧
      parse source name = o.mapError (·.located source name)) ∧
    ∃ o, o ≠ .error .exhausted ∧ Script.Settles .wholeExpression (.start source .arguments) o ∧
      parseExpression source name = o.mapError (·.located source name) :=
  ⟨⟨_, templateRun_ne_exhausted source, templateRun_settles source, rfl⟩,
    ⟨_, expressionRun_ne_exhausted source, expressionRun_settles source, rfl⟩⟩

end ClearSilver
