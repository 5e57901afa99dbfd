/-
# A run and its moments

A run goes on from a moment in four ways and ends in three (`Moment.Then`), and
the last moment tells how it ends: the outcome, the events and what is left are
those of the run (`Script.run_reaches`).

Key definitions: `Script.Waits`, `Moment.Then`, `Moment.EndsLike`.
Key theorems: `Moment.then_next`, `Script.run_reaches`,
`SessionMoment.reaches_end`.
-/
import ClearSilver.Moment

namespace ClearSilver

section

variable {σ α : Type} [TokenSource σ]

/-- A pull that meets no fault puts a token behind the others. -/
theorem Intake.exists_of_pull {p p' : Intake σ} (h : p.pull = (none, p')) :
    ∃ tok source, TokenSource.pull p.lookahead.source = (.ok tok, source) ∧
      p' = ⟨p.pulled ++ [tok], p.taken, ⟨source, p.lookahead.queue ++ [tok]⟩⟩ := by
  unfold pull at h
  cases hp : TokenSource.pull p.lookahead.source with
  | mk given source =>
    rw [hp] at h
    cases given with
    | error fault => cases h
    | ok tok => exact ⟨tok, source, rfl, (Prod.mk.inj h).2.symm⟩

/-- Does the script ask for a token that is not in the queue? -/
def Script.Waits : Script α → List Token → Prop
  | look ahead _, queue => queue.length ≤ ahead
  | take _, queue => queue = []
  | done _, _ | note _ _, _ | fail _, _ => False

namespace Moment

/-! ### One step -/

/-- The ways in which a run goes on or ends. -/
inductive Then : Moment σ α → Onward σ α → Prop
  | note {event : Event} {script : Script α} {events : List Event} {p : Intake σ} :
    Then ⟨.note event script, events, p⟩ (.goes ⟨script, events ++ [event], p⟩)
  | look {ahead : Nat} {script : Token → Script α} {events : List Event} {p : Intake σ}
    {tok : Token} (h : p.lookahead.queue[ahead]? = some tok) :
    Then ⟨.look ahead script, events, p⟩ (.goes ⟨script tok, events, p⟩)
  | take {script : Token → Script α} {events : List Event} {p : Intake σ} {tok : Token}
    {queue : List Token} (h : p.lookahead.queue = tok :: queue) :
    Then ⟨.take script, events, p⟩ (.goes ⟨script tok, events, p.remove tok queue⟩)
  | pull {script : Script α} {events : List Event} {p p' : Intake σ}
    (hw : script.Waits p.lookahead.queue) (h : p.pull = (none, p')) :
    Then ⟨script, events, p⟩ (.goes ⟨script, events, p'⟩)
  | done {a : α} {events : List Event} {p : Intake σ} : Then ⟨.done a, events, p⟩ (.ends (.ok a) p)
  | fail {fault : Fault} {events : List Event} {p : Intake σ} :
    Then ⟨.fail fault, events, p⟩ (.ends (.error fault) p)
  | stuck {script : Script α} {events : List Event} {p last : Intake σ} {fault : LexicalFault}
    (hw : script.Waits p.lookahead.queue) (h : p.pull = (some fault, last)) :
    Then ⟨script, events, p⟩ (.ends (.error (.lexical fault)) last)

/-- A pull for a script that waits is a step or the end. -/
theorem then_pull (m : Moment σ α) (hw : m.script.Waits m.intake.lookahead.queue) :
    m.Then m.pull := by
  unfold pull
  cases hp : m.intake.pull with
  | mk fault p =>
    cases fault with
    | none => exact .pull hw hp
    | some fault => exact .stuck hw hp

/-- **A run goes on in four ways and ends in three.** -/
theorem then_next : ∀ m : Moment σ α, m.Then m.next
  | ⟨.done a, events, p⟩ => .done
  | ⟨.fail fault, events, p⟩ => .fail
  | ⟨.note event script, events, p⟩ => .note
  | ⟨.look ahead script, events, p⟩ => by
    simp only [next]
    cases hq : p.lookahead.queue[ahead]? with
    | none => exact then_pull ⟨.look ahead script, events, p⟩ (List.getElem?_eq_none_iff.mp hq)
    | some tok => exact .look hq
  | ⟨.take script, events, p⟩ => by
    simp only [next]
    cases hq : p.lookahead.queue with
    | nil => exact then_pull ⟨.take script, events, p⟩ hq
    | cons tok queue => exact .take hq

theorem then_of_next {m : Moment σ α} {o : Onward σ α} (h : m.next = o) : m.Then o := by
  rw [← h]
  exact m.then_next

/-! ### The whole run -/

/-- Does the run from this moment on end like `r`, with the events of `r`
behind those noted so far? -/
def EndsLike (m : Moment σ α) (r : Run σ α) : Prop :=
  ∃ m' last, m.Reaches m' ∧ m'.next = .ends r.outcome last ∧ m'.events = m.events ++ r.events ∧
    last.lookahead = r.rest

theorem EndsLike.of_ends {m : Moment σ α} {o : Except Fault α} {last : Intake σ}
    (h : m.next = .ends o last) : m.EndsLike ⟨o, [], last.lookahead⟩ :=
  ⟨m, last, .refl, h, (List.append_nil _).symm, rfl⟩

/-- A step before the others that notes nothing. -/
theorem EndsLike.head {m m' : Moment σ α} {r : Run σ α} (h : m.next = .goes m')
    (he : m'.events = m.events) (hr : m'.EndsLike r) : m.EndsLike r := by
  obtain ⟨m'', last, hreaches, hend, hevents, hrest⟩ := hr
  exact ⟨m'', last, .head h hreaches, hend, by rw [hevents, he], hrest⟩

end Moment

/-- The run that goes on with the answer to a request. -/
def Script.answered (script : Token → Script α) :
    Except LexicalFault Token × Lookahead σ → Run σ α
  | (.ok tok, l) => (script tok).run l
  | (.error fault, l) => ⟨.error (.lexical fault), [], l⟩

theorem Script.run_look (ahead : Nat) (script : Token → Script α) (l : Lookahead σ) :
    (look ahead script).run l = answered script (l.look ahead) := by
  rw [run]
  cases l.look ahead with
  | mk given l' => cases given <;> rfl

theorem Script.run_take (script : Token → Script α) (l : Lookahead σ) :
    (take script).run l = answered script l.take := by
  rw [run]
  cases l.take with
  | mk given l' => cases given <;> rfl

namespace Moment

variable {script : Token → Script α} {events : List Event}

/-- A token far ahead is looked at once all before it are pulled, one in each
step, unless a pull fails before. -/
theorem endsLike_of_pullMore {ahead : Nat}
    (hall : ∀ tok (p : Intake σ), EndsLike ⟨script tok, events, p⟩ ((script tok).run p.lookahead)) :
    ∀ (n : Nat) (p : Intake σ), p.lookahead.queue.length + n = ahead →
      EndsLike ⟨.look ahead script, events, p⟩ (Script.answered script (p.lookahead.pullMore n))
  | n, ⟨pulled, taken, source, queue⟩, hn => by
    have hshort : queue[ahead]? = none :=
      List.getElem?_eq_none (by rw [← hn]; exact Nat.le_add_right _ n)
    unfold Lookahead.pullMore
    cases hp : TokenSource.pull source with
    | mk given source' =>
      cases given with
      | error fault =>
        have hend : (⟨.look ahead script, events, ⟨pulled, taken, source, queue⟩⟩ :
            Moment σ α).next = .ends (.error (.lexical fault)) ⟨pulled, taken, source', queue⟩ := by
          simp only [next, hshort, pull, Intake.pull, hp]
        exact .of_ends hend
      | ok tok =>
        have hstep : (⟨.look ahead script, events, ⟨pulled, taken, source, queue⟩⟩ :
            Moment σ α).next = .goes ⟨.look ahead script, events,
              ⟨pulled ++ [tok], taken, source', queue ++ [tok]⟩⟩ := by
          simp only [next, hshort, pull, Intake.pull, hp]
        refine .head hstep rfl ?_
        cases n with
        | zero =>
          have hat : (queue ++ [tok])[ahead]? = some tok := by
            rw [← hn]
            exact List.getElem?_concat_length
          have hanswer : (⟨.look ahead script, events,
              ⟨pulled ++ [tok], taken, source', queue ++ [tok]⟩⟩ : Moment σ α).next =
                .goes ⟨script tok, events, ⟨pulled ++ [tok], taken, source', queue ++ [tok]⟩⟩ := by
            simp only [next, hat]
          exact .head hanswer rfl (hall tok _)
        | succ n =>
          refine endsLike_of_pullMore hall n
            ⟨pulled ++ [tok], taken, source', queue ++ [tok]⟩ ?_
          simp only [List.length_append, List.length_singleton] at hn ⊢
          omega

theorem endsLike_of_take
    (hall : ∀ tok (p : Intake σ), EndsLike ⟨script tok, events, p⟩ ((script tok).run p.lookahead)) :
    ∀ p : Intake σ, EndsLike ⟨.take script, events, p⟩ (Script.answered script p.lookahead.take)
  | ⟨_, _, _, tok :: _⟩ => .head rfl rfl (hall tok _)
  | ⟨pulled, taken, source, []⟩ => by
    cases hp : TokenSource.pull source with
    | mk given source' =>
      cases given with
      | error fault =>
        have hgiven : Lookahead.take ⟨source, []⟩ = (.error fault, ⟨source', []⟩) := by
          simp [Lookahead.take, Lookahead.look, Lookahead.pullMore, hp]
        rw [hgiven]
        have hend : (⟨.take script, events, ⟨pulled, taken, source, []⟩⟩ : Moment σ α).next =
            .ends (.error (.lexical fault)) ⟨pulled, taken, source', []⟩ := by
          simp only [next, pull, Intake.pull, hp]
        exact .of_ends hend
      | ok tok =>
        have hgiven : Lookahead.take ⟨source, []⟩ = (.ok tok, ⟨source', []⟩) := by
          simp [Lookahead.take, Lookahead.look, Lookahead.pullMore, hp]
        rw [hgiven]
        have hstep : (⟨.take script, events, ⟨pulled, taken, source, []⟩⟩ : Moment σ α).next =
            .goes ⟨.take script, events, ⟨pulled ++ [tok], taken, source', [tok]⟩⟩ := by
          simp only [next, pull, Intake.pull, hp, List.nil_append]
        exact .head hstep rfl (.head rfl rfl (hall tok _))

end Moment

/-- **A run ends as its last moment says.** -/
theorem Script.run_reaches : ∀ (s : Script α) (events : List Event) (p : Intake σ),
    Moment.EndsLike ⟨s, events, p⟩ (s.run p.lookahead)
  | done a, events, p => Moment.EndsLike.of_ends rfl
  | fail fault, events, p => Moment.EndsLike.of_ends rfl
  | note event script, events, p => by
    obtain ⟨m, last, hreaches, hend, hevents, hrest⟩ :=
      run_reaches script (events ++ [event]) p
    refine ⟨m, last, .head rfl hreaches, hend, ?_, hrest⟩
    rw [hevents, List.append_assoc]
    rfl
  | look ahead script, events, p => by
    have hall := fun tok => run_reaches (script tok) events
    rw [run_look, Lookahead.look]
    cases hq : p.lookahead.queue[ahead]? with
    | some tok =>
      have hstep : (⟨.look ahead script, events, p⟩ : Moment σ α).next =
          .goes ⟨script tok, events, p⟩ := by
        simp only [Moment.next, hq]
      exact .head hstep rfl (hall tok p)
    | none =>
      have hle := List.getElem?_eq_none_iff.mp hq
      exact Moment.endsLike_of_pullMore hall _ p (by omega)
  | take script, events, p => by
    rw [run_take]
    exact Moment.endsLike_of_take (fun tok => run_reaches (script tok) events) p

end

/-! ### Sessions -/

namespace SessionMoment

variable {source : Text}

/-- The steps of a call are steps of the session. -/
theorem reaches_during {m m' : Moment Scanner Answer} (h : m.Reaches m') (waiting : List Call)
    (finished : List (Run Scanner Answer)) :
    Reaches source (during waiting finished m) (during waiting finished m') := by
  refine Relation.ReflTransGen.lift (during waiting finished) ?_ m m' h
  intro m₁ m₂ hstep
  show next source (during waiting finished m₁) = _
  simp only [next, during, hstep]

/-- **A session ends with the runs of its calls.** -/
theorem reaches_end : ∀ (calls : List Call) (finished : List (Run Scanner Answer))
    (p : Intake Scanner), ∃ last, Reaches source ⟨none, calls, finished, p⟩
      ⟨none, [], finished ++ session source calls p.lookahead, last⟩
  | [], finished, p => by
    refine ⟨p, ?_⟩
    rw [session, List.append_nil]
    exact .refl
  | c :: cs, finished, p => by
    let script := c.script (.among (lineStarts source)) (budgetFor source)
    obtain ⟨m, last, hreaches, hend, hevents, hrest⟩ := script.run_reaches [] p
    have hrun : (⟨(script.run p.lookahead).outcome, m.events, last.lookahead⟩ :
        Run Scanner Answer) = c.run source p.lookahead := by
      rw [hevents, hrest]
      rfl
    have hbegins : next source ⟨none, c :: cs, finished, p⟩ =
        some (during cs finished ⟨script, [], p⟩) := rfl
    have hends : next source (during cs finished m) =
        some ⟨none, cs, finished ++ [c.run source p.lookahead], last⟩ := by
      simp only [next, during, hend, hrun]
    obtain ⟨last', hlater⟩ := reaches_end cs (finished ++ [c.run source p.lookahead]) last
    have hall : finished ++ [c.run source p.lookahead] ++ session source cs last.lookahead =
        finished ++ session source (c :: cs) p.lookahead := by
      rw [session, ← List.append_cons, ← hrun]
    rw [hall] at hlater
    exact ⟨last', .head hbegins ((reaches_during hreaches cs finished).trans (.head hends hlater))⟩

end SessionMoment
end ClearSilver
