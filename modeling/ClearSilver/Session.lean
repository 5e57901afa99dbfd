/-
# Sessions

A session is a list of calls on one scanner or on one parser, made one after
the other. A call that fails leaves the scanner and the queue as the failure
left them, and the session goes on.

Key definitions: `Scanner.Call`, `Scanner.answer`, `Call`, `Call.script`,
`session`.
-/
import ClearSilver.Parse

namespace ClearSilver

/-! ### Calls on a scanner -/

namespace Scanner

inductive Call
  | next
  /-- All tokens up to the end. -/
  | drain
  | setMode (mode : Mode)
  | seek (pos : Nat)
  | location (offset : Nat)

inductive Answer
  | nothing
  | token (tok : Token)
  | tokens (toks : List Token)
  | place (l : Location)
  | fault (f : LexicalFault)

/-- The answer to a call and the scanner after it. -/
def answer (s : Scanner) : Call → Answer × Scanner
  | .next =>
    match s.next with
    | (.ok tok, s') => (.token tok, s')
    | (.error fault, s') => (.fault fault, s')
  | .drain =>
    match s.drain with
    | (toks, none, s') => (.tokens toks, s')
    | (_, some fault, s') => (.fault fault, s')
  | .setMode mode => (.nothing, { s with mode := mode })
  | .seek pos => (.nothing, { s with pos := pos })
  | .location offset => (.place (ClearSilver.location s.source offset), s)

/-- The answers to some calls, each with the scanner after it. -/
def session : List Call → Scanner → List (Answer × Scanner)
  | [], _ => []
  | c :: cs, s =>
    let r := s.answer c
    r :: session cs r.2

end Scanner

/-! ### Calls on a parser -/

/-- The procedures of the grammar. -/
inductive Procedure
  | template | commands | command
  | expression | expressionList
  /-- The binary operators from a level on, the loosest being 0. -/
  | level (n : Nat)
  | value | number | path

/-- A call on a parser. -/
inductive Call
  | peek (ahead : Nat)
  | at (kinds : List Token.Kind)
  | advance
  | accept (kinds : List Token.Kind)
  | expect (kind : Token.Kind) (expected : Text)
  /-- The fault of finding the token `ahead` places on; nothing fails. -/
  | fault (expected : Text) (ahead : Nat)
  /-- The position of the token `ahead` places on. -/
  | position (ahead : Nat)
  | read (p : Procedure)

inductive Answer
  | nothing
  | flag (b : Bool)
  | token (tok : Token)
  | fault (f : Fault)
  | position (p : Position)
  | node (n : Node)
  | nodes (ns : List Node)

namespace Procedure

/-- The script of a procedure with what it answers. -/
def script (place : Nat → Position) (budget : Nat) : Procedure → Script Answer
  | template => return .node (.command (← Script.template place budget))
  | commands => return .nodes ((← Script.commands place budget).map .command)
  | command => return .node (.command (← Script.command place budget))
  | expression => return .node (.expr (← Script.expression budget))
  | expressionList =>
    return .nodes ((← Script.items (Script.expression budget) budget).map .expr)
  | level n => return .node (.expr (← Script.expressionFrom n budget))
  | value => return .node (.expr (← Script.value budget))
  | number => return .node (.expr (← Script.number))
  | path => return .node (.path (← Script.variablePath budget))

end Procedure

namespace Call

/-- The script of a call with what it answers. -/
def script (place : Nat → Position) (budget : Nat) : Call → Script Answer
  | peek ahead => return .token (← Script.peek ahead)
  | .at kinds => return .flag (← Script.at? kinds)
  | advance => return .token (← Script.advance)
  | accept kinds => do
    match ← Script.accept kinds with
    | some tok => return .token tok
    | none => return .nothing
  | expect kind expected => return .token (← Script.expect kind (.phrase expected))
  | fault expected ahead => return .fault (.unexpected (.phrase expected) (← Script.peek ahead))
  | position ahead => return .position (place (← Script.peek ahead).offset)
  | read p => p.script place budget

/-- The run of a call on a parser of a source. -/
def run (source : Text) (c : Call) (l : Lookahead Scanner) : Run Scanner Answer :=
  (c.script (.among (lineStarts source)) (budgetFor source)).run l

end Call

/-- The runs of some calls, each on the parser that the one before it left. -/
def session (source : Text) : List Call → Lookahead Scanner → List (Run Scanner Answer)
  | [], _ => []
  | c :: cs, l =>
    let r := c.run source l
    r :: session source cs r.rest

end ClearSilver
