/-
# How far a run looks ahead

At each moment of the run over a template the queue holds at most two tokens,
and two only where the first opens a tag. The token that an error is about is
the last one that was pulled, so nothing behind it is read; for a block that is
never closed it is the end. The run over an expression holds one token.

Key definitions: `Fault.StopsExpression`, `Rule.expression`, `StopsAs`.
Key theorems: `Moment.upholds_ofTemplate`, `Moment.upholds_ofExpression`,
`templateRun_stops`, `expressionRun_stops`, `lookahead_of_parse`.
-/
import ClearSilver.Proofs.Parse.Sound
import ClearSilver.Proofs.Parser.CommandUpholds

namespace ClearSilver

/-- Can an expression stop like this behind these tokens? -/
def Fault.StopsExpression : Fault → List Token → Prop
  | unexpected _ found, ts => ts.getLast? = some found
  | exhausted, _ => True
  | unclosed _ _, _ | lexical _, _ => False

/-- What is asked of the run of an expression. -/
def Rule.expression : Rule where
  given _ := True
  inside _ := True
  queue ts := ts.length ≤ 1
  event _ _ _ := False
  fault := Fault.StopsExpression

theorem Rule.expression_lenient : Rule.expression.Lenient where
  queue _ h := h
  inside _ _ _ _ := trivial
  unexpected _ _ _ _ _ := List.getLast?_concat
  exhausted _ := trivial

namespace Moment

variable {source : Text}

/-- Each moment of the run over a template keeps the rule of templates. -/
theorem upholds_ofTemplate {m : Moment Scanner Command} (h : (ofTemplate source).Reaches m) :
    m.Upholds .template fun _ _ _ => True := by
  have hgiven : ∀ toks s, Pulls (Scanner.start source .content) toks s →
      Rule.template.given toks := fun toks s hp => hp.lexical
  have hstart : (ofTemplate source).Upholds .template fun _ _ _ => True :=
    ⟨.inl (Nat.zero_le 1), Script.template_upholds _ _⟩
  exact upholds_of_reaches hgiven (Intake.kept_start _) hstart h

/-- Each moment of the run over an expression keeps the rule of expressions. -/
theorem upholds_ofExpression {m : Moment Scanner Expr} (h : (ofExpression source).Reaches m) :
    m.Upholds .expression fun _ => Rule.expression.Within := by
  have hgiven : ∀ toks s, Pulls (Scanner.start source .arguments) toks s →
      Rule.expression.given toks := fun _ _ _ => trivial
  have hstart : (ofExpression source).Upholds .expression fun _ => Rule.expression.Within :=
    ⟨Nat.zero_le 1, Script.wholeExpression_modest _ _ Rule.expression_lenient [] []
      ⟨trivial, Nat.zero_le 1⟩⟩
  exact upholds_of_reaches hgiven (Intake.kept_start _) hstart h

theorem exists_last_ofTemplate (source : Text) : ∃ m last, (ofTemplate source).Reaches m ∧
    m.next = .ends (templateRun source).outcome last := by
  obtain ⟨m, last, hreaches, hend, -⟩ := Script.run_reaches (ofTemplate source).script []
    (.start (Scanner.start source .content))
  exact ⟨m, last, hreaches, hend⟩

theorem exists_last_ofExpression (source : Text) : ∃ m last, (ofExpression source).Reaches m ∧
    m.next = .ends (expressionRun source).outcome last := by
  obtain ⟨m, last, hreaches, hend, -⟩ := Script.run_reaches (ofExpression source).script []
    (.start (Scanner.start source .arguments))
  exact ⟨m, last, hreaches, hend⟩

end Moment

/-! ### Where a run stops -/

section

variable {source : Text} {fault : Fault}

/-- Does a run that a fault ended stop where the scanner does, or at tokens that
it gave as the rule says? -/
def StopsAs (start : Scanner) (stops : Fault → List Token → Prop) (fault : Fault) : Prop :=
  ∃ toks s, Pulls start toks s ∧
    ((∃ f, fault = .lexical f ∧ s.next = (.error f, s)) ∨ stops fault toks)

/-- **A template stops** where the scanner does or as the rule of templates says. -/
theorem templateRun_stops (h : (templateRun source).outcome = .error fault) :
    StopsAs (.start source .content) Fault.StopsTemplate fault := by
  obtain ⟨m, last, hreaches, hend⟩ := Moment.exists_last_ofTemplate source
  have hkept := Moment.kept_of_reaches (Intake.kept_start _) hreaches
  obtain rfl := Moment.eq_of_ends hend
  rw [h] at hend
  exact ⟨_, _, hkept.pulls, (Moment.upholds_ofTemplate hreaches).fault hkept hend⟩

/-- **A bare expression stops** where the scanner does or as the rule of
expressions says. -/
theorem expressionRun_stops (h : (expressionRun source).outcome = .error fault) :
    StopsAs (.start source .arguments) Fault.StopsExpression fault := by
  obtain ⟨m, last, hreaches, hend⟩ := Moment.exists_last_ofExpression source
  have hkept := Moment.kept_of_reaches (Intake.kept_start _) hreaches
  obtain rfl := Moment.eq_of_ends hend
  rw [h] at hend
  exact ⟨_, _, hkept.pulls, (Moment.upholds_ofExpression hreaches).fault hkept hend⟩

end

/-- **Two tokens of lookahead.** At each moment of the run over a template the
queue holds at most two tokens, and two only where the first opens a tag. The
run ends with what was pulled up to the token that the error is about, or up to
the end if a block is never closed. At each moment of the run over an
expression the queue holds at most one token. -/
theorem lookahead_of_parse (source : Text) :
    (∀ m, (Moment.ofTemplate source).Reaches m → m.intake.lookahead.queue.length ≤ 2 ∧
      (m.intake.lookahead.queue.length = 2 →
        ∃ front, m.intake.lookahead.queue.head? = some front ∧ front.kind = .tagOpen)) ∧
    (∃ m last, (Moment.ofTemplate source).Reaches m ∧
      m.next = .ends (templateRun source).outcome last ∧
        Pulls (Scanner.start source .content) last.pulled last.lookahead.source ∧
          ∀ name e, parse source name = .error e →
            (∀ expected found, e.cause = .unexpected expected found →
              last.pulled.getLast? = some found) ∧
            ∀ keyword openTag, e.cause = .unclosed keyword openTag →
              ∃ tok, last.pulled.getLast? = some tok ∧ tok.kind = .eof) ∧
    (∀ m, (Moment.ofExpression source).Reaches m → m.intake.lookahead.queue.length ≤ 1) ∧
    ∃ m last, (Moment.ofExpression source).Reaches m ∧
      m.next = .ends (expressionRun source).outcome last := by
  refine ⟨fun m hm => ?_, ?_, fun m hm => (Moment.upholds_ofExpression hm).queue, ?_⟩
  · rcases (Moment.upholds_ofTemplate hm).queue with hle | ⟨openTag, tok, hqueue, hopen⟩
    · exact ⟨Nat.le_succ_of_le hle, fun hlen => by omega⟩
    · rw [hqueue]
      exact ⟨Nat.le_refl 2, fun _ => ⟨openTag, rfl, hopen⟩⟩
  · obtain ⟨m, last, hreaches, hend⟩ := Moment.exists_last_ofTemplate source
    have hkept := Moment.kept_of_reaches (Intake.kept_start _) hreaches
    obtain rfl := Moment.eq_of_ends hend
    refine ⟨m, m.intake, hreaches, hend, hkept.pulls, fun name e he => ?_⟩
    obtain ⟨fault, houtcome, rfl⟩ := templateRun_of_parse_error he
    rw [houtcome] at hend
    have hfault := (Moment.upholds_ofTemplate hreaches).fault hkept hend
    constructor
    · rintro expected found rfl
      rcases hfault with ⟨f, hf, -⟩ | ⟨before, hpulled, -⟩
      · cases hf
      · rw [hpulled]
        exact List.getLast?_concat
    · rintro keyword openTag rfl
      rcases hfault with ⟨f, hf, -⟩ | hlast
      · cases hf
      · exact hlast
  · exact Moment.exists_last_ofExpression source

/-- An operand that is missing, with more of the template behind it, and a
block that is never closed. -/
theorem lookahead_of_parse_stopped :
    (∃ m last, (Moment.ofTemplate "a<?cs var:b + ?><?cs set:").Reaches m ∧
      m.next = .ends (.error (.unexpected .expression ⟨.tagClose, "?>", 14⟩)) last ∧
        last.pulled.getLast? = some ⟨.tagClose, "?>", 14⟩) ∧
    ∃ m last tok, (Moment.ofTemplate "<?cs alt:a ?>b").Reaches m ∧
      m.next = .ends (.error (.unclosed ⟨.keyword .alt, "alt", 5⟩ ⟨.tagOpen, "<?cs ", 0⟩)) last ∧
        last.pulled.getLast? = some tok ∧ tok.kind = .eof := by
  constructor
  · have hstops : parse "a<?cs var:b + ?><?cs set:" [] =
        .error ⟨.unexpected .expression ⟨.tagClose, "?>", 14⟩, 14, 1, 15, []⟩ :=
      eq_error_of_failure? (by decide +kernel)
    obtain ⟨fault, houtcome, hfault⟩ := templateRun_of_parse_error hstops
    obtain rfl := (ParseError.mk.inj hfault).1
    obtain ⟨-, ⟨m, last, hreaches, hend, -, hlast⟩, -⟩ :=
      lookahead_of_parse "a<?cs var:b + ?><?cs set:"
    rw [houtcome] at hend
    exact ⟨m, last, hreaches, hend, (hlast [] _ hstops).1 _ _ rfl⟩
  · have hstops : parse "<?cs alt:a ?>b" [] =
        .error ⟨.unclosed ⟨.keyword .alt, "alt", 5⟩ ⟨.tagOpen, "<?cs ", 0⟩, 0, 1, 1, []⟩ :=
      eq_error_of_failure? (by decide +kernel)
    obtain ⟨fault, houtcome, hfault⟩ := templateRun_of_parse_error hstops
    obtain rfl := (ParseError.mk.inj hfault).1
    obtain ⟨-, ⟨m, last, hreaches, hend, -, hlast⟩, -⟩ := lookahead_of_parse "<?cs alt:a ?>b"
    rw [houtcome] at hend
    obtain ⟨tok, htok, hk⟩ := (hlast [] _ hstops).2 _ _ rfl
    exact ⟨m, last, tok, hreaches, hend, htok, hk⟩

end ClearSilver
