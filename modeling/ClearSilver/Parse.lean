/-
# Parsing a template or an expression

`parse` reads a whole template, `parseExpression` a bare expression without
a tag around it. Both run a script over a scanner that is pulled as the
script asks, with a budget greater than the number of tokens that the source
can have.

Key definitions: `budgetFor`, `templateRun`, `parse`, `parseExpression`.
-/
import ClearSilver.Lookahead
import ClearSilver.Parser.Command

namespace ClearSilver

/-- A source has at most one token for each character and one more. -/
def budgetFor (source : Text) : Nat := source.length + 2

/-- The run of the template grammar over a source. -/
def templateRun (source : Text) : Run Scanner Command :=
  (Script.template (.among (lineStarts source)) (budgetFor source)).run
    (.start (.start source .content))

/-- An expression and nothing after it. -/
def Script.wholeExpression (budget : Nat) : Script Expr := do
  let found ← expression budget
  let _ ← expect .eof .endOfExpression
  return found

/-- The run of the expression grammar over a source. -/
def expressionRun (source : Text) : Run Scanner Expr :=
  (Script.wholeExpression (budgetFor source)).run (.start (.start source .arguments))

/-- The tree of a template, or the error about the named source. -/
def parse (source name : Text) : Except ParseError Command :=
  (templateRun source).outcome.mapError (·.located source name)

/-- The tree of a bare expression, or the error about the named source. -/
def parseExpression (source name : Text) : Except ParseError Expr :=
  (expressionRun source).outcome.mapError (·.located source name)

end ClearSilver
