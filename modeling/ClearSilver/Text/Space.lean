/-
# Space at the ends of a text

Messages show a lexeme without the space at its ends. Space is what Unicode
calls white space and the four information separators U+001C to U+001F.

Key definitions: `isWhiteSpace`, `isSpace`, `Text.stripped`.
-/
import ClearSilver.Text.Basic

namespace ClearSilver

/-- Has the character the Unicode property White_Space? -/
def isWhiteSpace (c : Char) : Bool :=
  let n := c.toNat
  (9 ≤ n && n ≤ 13) || n = 32 || n = 0x85 || n = 0xA0 || n = 0x1680 || (0x2000 ≤ n && n ≤ 0x200A) ||
    n = 0x2028 || n = 0x2029 || n = 0x202F || n = 0x205F || n = 0x3000

/-- White space, or one of the information separators. -/
def isSpace (c : Char) : Bool := isWhiteSpace c || (0x1C ≤ c.toNat && c.toNat ≤ 0x1F)

/-- The text without the space at its ends. -/
def Text.stripped (t : Text) : Text := t.trimmed isSpace

end ClearSilver
