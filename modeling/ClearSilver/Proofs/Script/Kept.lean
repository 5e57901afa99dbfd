/-
# The books of a run

Each step of a run keeps the books: the tokens taken from the queue and those
in it are, in order, the tokens that the scanner gave (`Intake.Kept`). A fault
of the scanner changes neither the scanner nor the queue, so the books are kept
in a whole run and in a whole session, whatever calls fail in it.

Key definitions: `Intake.Kept`.
Key theorems: `Scanner.next_fault`, `Moment.kept_next`, `Moment.kept_of_reaches`,
`SessionMoment.kept_of_reaches`.
-/
import ClearSilver.Proofs.Script.Feed
import ClearSilver.Proofs.Script.Moments

namespace ClearSilver

/-- A fault leaves the scanner where it was. -/
theorem Scanner.next_fault {s s' : Scanner} {fault : LexicalFault}
    (h : s.next = (.error fault, s')) : s' = s := by
  unfold next at h
  split at h
  · cases h
  · exact (Prod.mk.inj h).2.symm
  · cases h

/-- Are the tokens taken and those in the queue, in this order, what the
scanner gave, and does it stand behind them? -/
structure Intake.Kept (start : Scanner) (p : Intake Scanner) : Prop where
  tokens : p.taken ++ p.lookahead.queue = p.pulled
  pulls : Pulls start p.pulled p.lookahead.source

namespace Intake

variable {start : Scanner} {p p' : Intake Scanner}

theorem kept_start (scanner : Scanner) : (Intake.start scanner).Kept scanner := ⟨rfl, .none scanner⟩

/-- A token that is pulled comes last. -/
theorem Kept.pull (h : p.Kept start) (hp : p.pull = (none, p')) : p'.Kept start := by
  obtain ⟨tok, source, hpull, rfl⟩ := Intake.exists_of_pull hp
  constructor
  · show p.taken ++ (p.lookahead.queue ++ [tok]) = p.pulled ++ [tok]
    rw [← List.append_assoc, h.tokens]
  · exact h.pulls.append (.more hpull (.none _))

/-- A pull that fails meets the fault of the scanner and changes nothing. -/
theorem pull_fault {fault : LexicalFault} (hp : p.pull = (some fault, p')) :
    p' = p ∧ p.lookahead.source.next = (.error fault, p.lookahead.source) := by
  unfold pull at hp
  cases hpull : TokenSource.pull p.lookahead.source with
  | mk given source =>
    rw [hpull] at hp
    cases given with
    | ok tok => cases hp
    | error fault' =>
      obtain rfl : source = p.lookahead.source := Scanner.next_fault hpull
      obtain ⟨hfault, rfl⟩ := Prod.mk.inj hp
      obtain rfl := Option.some.inj hfault
      exact ⟨rfl, hpull⟩

/-- A token that is taken comes behind those taken before. -/
theorem Kept.remove {tok : Token} {queue : List Token} (h : p.Kept start)
    (hq : p.lookahead.queue = tok :: queue) : (p.remove tok queue).Kept start := by
  constructor
  · have htokens := h.tokens
    rw [hq, List.append_cons] at htokens
    exact htokens
  · exact h.pulls

end Intake

namespace Moment

variable {α : Type} {start : Scanner} {m m' : Moment Scanner α}

/-- A step keeps the books. -/
theorem kept_next (h : m.intake.Kept start) (hn : m.next = .goes m') : m'.intake.Kept start := by
  cases then_of_next hn with
  | note => exact h
  | look _ => exact h
  | take hq => exact h.remove hq
  | pull _ hp => exact h.pull hp

/-- The end changes nothing. -/
theorem eq_of_ends {o : Except Fault α} {last : Intake Scanner} (hn : m.next = .ends o last) :
    last = m.intake := by
  cases then_of_next hn with
  | done => rfl
  | fail => rfl
  | stuck _ hp => exact (Intake.pull_fault hp).1

/-- **The books are kept in a whole run.** -/
theorem kept_of_reaches (h : m.intake.Kept start) (hr : m.Reaches m') : m'.intake.Kept start := by
  induction hr with
  | refl => exact h
  | tail _ hn ih => exact kept_next ih hn

end Moment

namespace SessionMoment

variable {source : Text} {start : Scanner} {m m' : SessionMoment}

theorem kept_next (h : m.intake.Kept start) (hn : m.next source = some m') :
    m'.intake.Kept start := by
  obtain ⟨running, waiting, finished, p⟩ := m
  cases running with
  | none =>
    cases waiting with
    | nil => cases hn
    | cons c cs =>
      obtain rfl := Option.some.inj hn
      exact h
  | some call =>
    obtain ⟨script, events⟩ := call
    simp only [next] at hn
    cases hstep : Moment.next ⟨script, events, p⟩ with
    | goes m' =>
      rw [hstep] at hn
      obtain rfl := Option.some.inj hn
      exact Moment.kept_next h hstep
    | ends outcome last =>
      rw [hstep] at hn
      obtain rfl := Option.some.inj hn
      obtain rfl := Moment.eq_of_ends hstep
      exact h

/-- **The books are kept in a whole session**, whatever calls fail. -/
theorem kept_of_reaches (h : m.intake.Kept start) (hr : m.Reaches source m') :
    m'.intake.Kept start := by
  induction hr with
  | refl => exact h
  | tail _ hn ih => exact kept_next ih hn

end SessionMoment

end ClearSilver
