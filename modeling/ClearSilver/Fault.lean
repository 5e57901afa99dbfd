/-
# What can go wrong, and how it is told

A run of the parser stops for one of four causes: a character that begins no
lexeme, a token other than the expected one, a block that is still open at
the end of the input, or a budget of steps that is spent. Every cause has an
offset; an error is a cause with the line, the column and the name of its
source.

Key definitions: `Expectation`, `Expectation.text`, `Token.described`,
`Fault`, `Fault.offset`, `Fault.message`, `ParseError`, `ParseError.message`.
-/
import ClearSilver.Text.Location
import ClearSilver.Text.Quoted
import ClearSilver.Text.Space
import ClearSilver.Scanner

namespace ClearSilver

/-! ### What was expected and what was found -/

/-- What the grammar expects at some point. -/
inductive Expectation
  | commandOrEnd
  | commandKeyword
  | tagOpen
  | tagClose
  /-- The delimiter after a keyword. -/
  | delimiterAfter (keyword : Text)
  /-- The close tag of a keyword's block. -/
  | closeOf (keyword : Text)
  | symbol (s : Symbol)
  | macroName
  | string
  | expression
  | number
  | variableName
  | nameAfterDot
  | endOfExpression
  /-- What a caller asks for in words of its own. -/
  | phrase (words : Text)
deriving DecidableEq

/-- A text between plain single quotes. -/
def singleQuoted (t : Text) : Text := "'" ++ t ++ "'"

def Expectation.text : Expectation → Text
  | commandOrEnd => "a command or end of input"
  | commandKeyword => "command keyword"
  | tagOpen => "'<?cs'"
  | tagClose => "'?>'"
  | delimiterAfter keyword => "':' after " ++ singleQuoted keyword
  | closeOf keyword => singleQuoted ("/" ++ keyword)
  | symbol s => singleQuoted s.text
  | macroName => "macro name"
  | string => "string"
  | expression => "expression"
  | number => "number"
  | variableName => "variable name"
  | nameAfterDot => "name after '.'"
  | endOfExpression => "end of expression"
  | phrase words => words

/-- How a message shows a token. Literal text is cut after twenty characters,
and every other lexeme is shown without the space at its ends. -/
def Token.described (tok : Token) : Text :=
  match tok.kind with
  | .eof => "end of input"
  | .data =>
    "text " ++ Text.quoted (if tok.text.length ≤ 20 then tok.text else tok.text.take 20 ++ "...")
  | .softDelimiter | .hardDelimiter =>
    let shown := tok.text.stripped
    "delimiter " ++ Text.quoted (if shown.isEmpty then "whitespace" else shown)
  | _ => tok.text.stripped.quoted

/-! ### Causes -/

/-- Why a run of the parser stopped. -/
inductive Fault
  /-- No rule of the mode matches. -/
  | lexical (fault : LexicalFault)
  /-- The grammar does not go on with this token. -/
  | unexpected (expected : Expectation) (found : Token)
  /-- The block opened by this tag is open at the end of the input. -/
  | unclosed (keyword openTag : Token)
  /-- The budget of steps is spent. -/
  | exhausted
deriving DecidableEq

namespace Fault

/-- The offset a fault is about. -/
def offset : Fault → Nat
  | lexical fault => fault.offset
  | unexpected _ found => found.offset
  | unclosed _ openTag => openTag.offset
  | exhausted => 0

def message : Fault → Text
  | lexical fault =>
    "unexpected character " ++ Text.quoted [fault.char] ++ " in " ++ fault.mode.text ++ " state"
  | unexpected expected found => "expected " ++ expected.text ++ ", found " ++ found.described
  | unclosed keyword _ =>
    singleQuoted keyword.text ++ " block opened here is never closed with " ++
      singleQuoted ("/" ++ keyword.text)
  | exhausted => "the budget of steps is spent"

end Fault

/-! ### Errors -/

/-- A fault with the place it is at. -/
structure ParseError where
  cause : Fault
  offset : Nat
  line : Nat
  column : Nat
  name : Text
deriving DecidableEq

/-- The fault as an error about a named source. -/
def Fault.located (fault : Fault) (source name : Text) : ParseError :=
  let place := location source fault.offset
  ⟨fault, fault.offset, place.line, place.column, name⟩

namespace ParseError

/-- The line and the column in words. -/
def placed (e : ParseError) : Text := "line " ++ decimal e.line ++ ", col " ++ decimal e.column

/-- The message with its place, and with the name of the source if it has one. -/
def message (e : ParseError) : Text :=
  let place : Text := if e.name.isEmpty then e.placed else e.name ++ ": " ++ e.placed
  place ++ ": " ++ e.cause.message

end ParseError
end ClearSilver
