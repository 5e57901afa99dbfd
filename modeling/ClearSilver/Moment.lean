/-
# The moments of a run

A run answers the requests of its script one after the other, and pulls the
tokens an answer needs one at a time. A moment of a run is the script that is
left, with a record of the tokens that the source gave and of those that were
taken (`Moment.next`). The moments of a session are those of its calls in a
row: a call that fails ends, and the next one begins where it stopped
(`SessionMoment.next`).

Key definitions: `Intake`, `Moment`, `Moment.next`, `Moment.Reaches`,
`Moment.ofTemplate`, `Moment.ofExpression`, `SessionMoment`,
`SessionMoment.next`, `SessionMoment.Reaches`.
-/
import ClearSilver.Session
import Mathlib.Logic.Relation

namespace ClearSilver

/-- What was done with a source: the tokens it gave, in order, those that were
removed from the queue, in order, and the source and the queue as they are. -/
structure Intake (σ : Type) where
  pulled : List Token
  taken : List Token
  lookahead : Lookahead σ

namespace Intake

variable {σ : Type} [TokenSource σ]

/-- Nothing is pulled yet. -/
def start (source : σ) : Intake σ := ⟨[], [], .start source⟩

/-- Pulls one token into the queue, or meets a fault and keeps the queue. -/
def pull (p : Intake σ) : Option LexicalFault × Intake σ :=
  match TokenSource.pull p.lookahead.source with
  | (.ok tok, source) =>
    (none, ⟨p.pulled ++ [tok], p.taken, ⟨source, p.lookahead.queue ++ [tok]⟩⟩)
  | (.error fault, source) => (some fault, { p with lookahead := ⟨source, p.lookahead.queue⟩ })

/-- The first token of the queue is removed from it. -/
def remove (tok : Token) (queue : List Token) (p : Intake σ) : Intake σ :=
  ⟨p.pulled, p.taken ++ [tok], ⟨p.lookahead.source, queue⟩⟩

end Intake

/-! ### Runs -/

/-- A run that is not over: the script that is left, the events noted so far
and what was done with the source. -/
structure Moment (σ α : Type) where
  script : Script α
  events : List Event
  intake : Intake σ

/-- What comes after a moment of a run. -/
inductive Onward (σ α : Type)
  | goes (m : Moment σ α)
  | ends (outcome : Except Fault α) (last : Intake σ)

namespace Moment

variable {σ α : Type} [TokenSource σ]

/-- The same request with one more token in the queue. -/
def pull (m : Moment σ α) : Onward σ α :=
  match m.intake.pull with
  | (none, p) => .goes ⟨m.script, m.events, p⟩
  | (some fault, p) => .ends (.error (.lexical fault)) p

/-- One step of a run: a request is answered or one token is pulled for it. -/
def next (m : Moment σ α) : Onward σ α :=
  match m.script with
  | .done a => .ends (.ok a) m.intake
  | .fail fault => .ends (.error fault) m.intake
  | .note event script => .goes ⟨script, m.events ++ [event], m.intake⟩
  | .look ahead script =>
    match m.intake.lookahead.queue[ahead]? with
    | some tok => .goes ⟨script tok, m.events, m.intake⟩
    | none => m.pull
  | .take script =>
    match m.intake.lookahead.queue with
    | tok :: queue => .goes ⟨script tok, m.events, m.intake.remove tok queue⟩
    | [] => m.pull

/-- Does a run pass through the second moment if it passes through the first? -/
def Reaches : Moment σ α → Moment σ α → Prop :=
  Relation.ReflTransGen fun m m' => m.next = .goes m'

/-- The beginning of the run of the template grammar over a source. -/
def ofTemplate (source : Text) : Moment Scanner Command :=
  ⟨.template (.among (lineStarts source)) (budgetFor source), [], .start (.start source .content)⟩

/-- The beginning of the run of the expression grammar over a source. -/
def ofExpression (source : Text) : Moment Scanner Expr :=
  ⟨.wholeExpression (budgetFor source), [], .start (.start source .arguments)⟩

end Moment

/-! ### Sessions -/

/-- A session on a parser: the script and the events of the call that runs, if
one does, the calls after it, the runs before it and what was done with the
scanner in all of them. -/
structure SessionMoment where
  running : Option (Script Answer × List Event)
  waiting : List Call
  finished : List (Run Scanner Answer)
  intake : Intake Scanner

namespace SessionMoment

/-- Some calls before the first of them. -/
def start (calls : List Call) (scanner : Scanner) : SessionMoment :=
  ⟨none, calls, [], .start scanner⟩

/-- A session while a call runs. -/
def during (waiting : List Call) (finished : List (Run Scanner Answer))
    (m : Moment Scanner Answer) : SessionMoment :=
  ⟨some (m.script, m.events), waiting, finished, m.intake⟩

/-- One step of a session on a parser of a source: the next call begins, or
the call that runs makes a step or ends, well or with a fault. -/
def next (source : Text) (m : SessionMoment) : Option SessionMoment :=
  match m.running with
  | some (script, events) =>
    match Moment.next ⟨script, events, m.intake⟩ with
    | .goes m' => some (during m.waiting m.finished m')
    | .ends outcome last =>
      some ⟨none, m.waiting, m.finished ++ [⟨outcome, events, last.lookahead⟩], last⟩
  | none =>
    match m.waiting with
    | [] => none
    | c :: cs =>
      let script := c.script (.among (lineStarts source)) (budgetFor source)
      some (during cs m.finished ⟨script, [], m.intake⟩)

/-- Does a session pass through the second moment if it passes through the first? -/
def Reaches (source : Text) : SessionMoment → SessionMoment → Prop :=
  Relation.ReflTransGen fun m m' => m.next source = some m'

end SessionMoment
end ClearSilver
