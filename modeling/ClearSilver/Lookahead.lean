/-
# Running a script

A script runs over a source of tokens with a queue in front of it: the tokens
that were looked at and are not yet taken. A token is pulled from the source
only when the queue is too short to answer. When a pull fails the source is
left as the failing pull left it and the queue keeps what it holds.

Two sources are given: the scanner, and a finished list of tokens with a
token that repeats at its end.

Key definitions: `TokenSource`, `Tape`, `Lookahead`, `Lookahead.look`,
`Lookahead.take`, `Run`, `Script.run`.
-/
import ClearSilver.Script

namespace ClearSilver

/-- Something that gives tokens one at a time. -/
class TokenSource (σ : Type) where
  pull : σ → Except LexicalFault Token × σ

instance : TokenSource Scanner := ⟨Scanner.next⟩

/-- A finished list of tokens, and the token that is given after them. -/
structure Tape where
  tokens : List Token
  last : Token

instance : TokenSource Tape where
  pull t :=
    match t.tokens with
    | [] => (.ok t.last, t)
    | tok :: rest => (.ok tok, { t with tokens := rest })

/-- A source with the tokens that were looked at and are not yet taken. -/
structure Lookahead (σ : Type) where
  source : σ
  queue : List Token

namespace Lookahead

variable {σ : Type} [TokenSource σ]

/-- A source of which nothing has been looked at. -/
def start (source : σ) : Lookahead σ := ⟨source, []⟩

/-- Pulls `n + 1` tokens into the queue and gives the last of them. -/
def pullMore : Nat → Lookahead σ → Except LexicalFault Token × Lookahead σ
  | n, l =>
    match TokenSource.pull l.source with
    | (.error fault, source) => (.error fault, { l with source := source })
    | (.ok tok, source) =>
      let l' : Lookahead σ := ⟨source, l.queue ++ [tok]⟩
      match n with
      | 0 => (.ok tok, l')
      | n + 1 => pullMore n l'

/-- The token `ahead` places on. -/
def look (ahead : Nat) (l : Lookahead σ) : Except LexicalFault Token × Lookahead σ :=
  match l.queue[ahead]? with
  | some tok => (.ok tok, l)
  | none => pullMore (ahead - l.queue.length) l

/-- The next token, removed from the queue. -/
def take (l : Lookahead σ) : Except LexicalFault Token × Lookahead σ :=
  match l.look 0 with
  | (.ok tok, l') => (.ok tok, { l' with queue := l'.queue.tail })
  | (.error fault, l') => (.error fault, l')

end Lookahead

/-- How a run ended, the events on the way in order, and what is left. -/
structure Run (σ α : Type) where
  outcome : Except Fault α
  events : List Event
  rest : Lookahead σ

namespace Script

variable {σ α β : Type} [TokenSource σ]

/-- Runs a script to its end or to the first fault. -/
def run : Script α → Lookahead σ → Run σ α
  | done a, l => ⟨.ok a, [], l⟩
  | fail fault, l => ⟨.error fault, [], l⟩
  | note event next, l =>
    let r := next.run l
    { r with events := event :: r.events }
  | look ahead next, l =>
    match l.look ahead with
    | (.ok tok, l') => (next tok).run l'
    | (.error fault, l') => ⟨.error (.lexical fault), [], l'⟩
  | take next, l =>
    match l.take with
    | (.ok tok, l') => (next tok).run l'
    | (.error fault, l') => ⟨.error (.lexical fault), [], l'⟩

end Script
end ClearSilver
