/-
# Parsing as a script of requests

A parser is a script: it asks to look at a token some places ahead, takes the
next token, notes an event, stops with a fault or is done. A script says what
is asked, not where the tokens come from, so one script runs over a scanner
that is pulled on demand and over a finished list of tokens alike.

Key definitions: `Event`, `Script`, `Script.bind`, `Script.peek`,
`Script.advance`, `Script.accept`, `Script.expect`, `Script.reject`.
Key theorems: `Script.bind_done`, `Script.bind_assoc`.
-/
import ClearSilver.Fault

namespace ClearSilver

/-- What a run of the parser goes through. -/
inductive Event
  /-- The commands of a template or of a block begin. -/
  | bodyStart
  /-- The commands of a template or of a block are read. -/
  | bodyEnd
  /-- A tag opens with a command keyword. -/
  | tag (keyword : Text) (offset : Nat)
  /-- A template is read, with so many commands beside each other. -/
  | finished (commands : Nat)
deriving DecidableEq

/-- A script of requests that gives an `α`. -/
inductive Script (α : Type) where
  | done (a : α)
  | look (ahead : Nat) (next : Token → Script α)
  | take (next : Token → Script α)
  | note (event : Event) (next : Script α)
  | fail (fault : Fault)

namespace Script

/-- The requests of `s`, then those of the script its result leads to. -/
def bind {α β : Type} : Script α → (α → Script β) → Script β
  | done a, f => f a
  | look ahead next, f => look ahead fun tok => (next tok).bind f
  | take next, f => take fun tok => (next tok).bind f
  | note event next, f => note event (next.bind f)
  | fail fault, _ => fail fault

instance : Monad Script where
  pure := done
  bind := bind

theorem bind_done {α : Type} : ∀ s : Script α, s.bind done = s
  | done _ => rfl
  | look ahead next => congrArg (look ahead) (funext fun tok => bind_done (next tok))
  | take next => congrArg take (funext fun tok => bind_done (next tok))
  | note event next => congrArg (note event) (bind_done next)
  | fail _ => rfl

theorem bind_assoc {α β γ : Type} (f : α → Script β) (g : β → Script γ) :
    ∀ s : Script α, (s.bind f).bind g = s.bind fun a => (f a).bind g
  | done _ => rfl
  | look ahead next => congrArg (look ahead) (funext fun tok => bind_assoc f g (next tok))
  | take next => congrArg take (funext fun tok => bind_assoc f g (next tok))
  | note event next => congrArg (note event) (bind_assoc f g next)
  | fail _ => rfl

/-! ### The common requests -/

/-- The token `ahead` places on, which stays where it is. -/
def peek (ahead : Nat) : Script Token := look ahead done

/-- The next token, taken. -/
def advance : Script Token := take done

/-- Is the next token of one of these kinds? -/
def at? (kinds : List Token.Kind) : Script Bool :=
  look 0 fun tok => done (kinds.contains tok.kind)

/-- The next token, taken if it is of one of these kinds. -/
def accept (kinds : List Token.Kind) : Script (Option Token) :=
  look 0 fun tok => if kinds.contains tok.kind then take fun tok => done (some tok) else done none

/-- Stops: something else was expected than this token. -/
def reject {α : Type} (expected : Expectation) (found : Token) : Script α :=
  fail (.unexpected expected found)

/-- The next token, taken; stops if it is not of this kind. -/
def expect (kind : Token.Kind) (expected : Expectation) : Script Token :=
  look 0 fun tok => if tok.kind = kind then advance else reject expected tok

/-- Notes an event. -/
def record (event : Event) : Script Unit := note event (done ())

end Script
end ClearSilver
