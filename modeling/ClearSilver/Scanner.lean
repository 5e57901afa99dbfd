/-
# The scanner

A scanner is a source, the offset it has reached and a mode. `Scanner.next`
gives one token at a time, `Scanner.drain` all that are left and `tokenize`
all tokens of a template. A token that is not the end moves the scanner on by
at least one character, so a scanner gives at most one token for each
character left and one more.

Key definitions: `Scanner`, `LexicalFault`, `Scanner.next`, `Scanner.drain`,
`tokenize`.
-/
import ClearSilver.Mode

namespace ClearSilver

/-- A source, the offset reached in it and the mode. -/
structure Scanner where
  source : Text
  pos : Nat
  mode : Mode
deriving DecidableEq

/-- A character that begins no lexeme of the mode it was met in. -/
structure LexicalFault where
  mode : Mode
  char : Char
  offset : Nat
deriving DecidableEq

namespace Scanner

/-- A scanner at the beginning of a source. -/
def start (source : Text) (mode : Mode) : Scanner := ⟨source, 0, mode⟩

/-- The text that is left. -/
def rest (s : Scanner) : Text := s.source.drop s.pos

/-- The next token. A fault leaves the scanner where it was. -/
def next (s : Scanner) : Except LexicalFault Token × Scanner :=
  match s.mode.scan s.rest with
  | .lexeme skipped kind text =>
    let offset := s.pos + skipped
    (.ok ⟨kind, text, offset⟩, { s with pos := offset + text.length, mode := s.mode.step kind })
  | .stuck skipped char => (.error ⟨s.mode, char, s.pos + skipped⟩, s)
  | .ended => (.ok (Token.atEnd s.source.length), { s with pos := s.source.length })

/-- The next `n` tokens, or those up to the end or a fault if that comes first. -/
def drainUpTo : Nat → Scanner → List Token × Option LexicalFault × Scanner
  | 0, s => ([], none, s)
  | n + 1, s =>
    match s.next with
    | (.error fault, s') => ([], some fault, s')
    | (.ok tok, s') =>
      if tok.kind = .eof then ([tok], none, s')
      else
        let (rest, fault, last) := drainUpTo n s'
        (tok :: rest, fault, last)

/-- The tokens from here to the end, with the fault that stops them if there
is one, and the scanner after them. -/
def drain (s : Scanner) : List Token × Option LexicalFault × Scanner :=
  drainUpTo (s.source.length - s.pos + 1) s

end Scanner

/-- All tokens of a template up to its end, or the fault that stops them. -/
def tokenize (source : Text) : Except LexicalFault (List Token) :=
  match (Scanner.start source .content).drain with
  | (tokens, none, _) => .ok tokens
  | (_, some fault, _) => .error fault

end ClearSilver
