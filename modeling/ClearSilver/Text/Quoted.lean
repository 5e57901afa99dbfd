/-
# Text in quotes, as messages show it

A text stands between single quotes, or between double quotes if it holds a
single quote and no double one. Inside, the backslash, the quote that is in
use, line feed, carriage return and tab are escaped by a backslash, and a
character that is not printable is shown by its code point in two, four or
eight hexadecimal digits, the fewest that hold it.

Key definitions: `Text.quoteMark`, `Text.escapedIn`, `Text.quoted`.
-/
import ClearSilver.Text.Printable

namespace ClearSilver
namespace Text

/-- The quote that a text stands in. -/
def quoteMark (t : Text) : Char := if t.contains '\'' && !t.contains '"' then '"' else '\''

/-- A code point in the fewest of two, four and eight digits that hold it. -/
def codeEscape (n : Nat) : Text :=
  if n < 0x100 then "\\x" ++ hexDigits 2 n
  else if n < 0x10000 then "\\u" ++ hexDigits 4 n
  else "\\U" ++ hexDigits 8 n

/-- A character as it stands inside quotes of this mark. -/
def escapedIn (mark c : Char) : Text :=
  if c = mark || c = '\\' then ['\\', c]
  else if c = '\n' then "\\n"
  else if c = '\r' then "\\r"
  else if c = '\t' then "\\t"
  else if isPrintable c then [c]
  else codeEscape c.toNat

/-- The text in quotes. -/
def quoted (t : Text) : Text :=
  let mark := t.quoteMark
  mark :: t.flatMap (escapedIn mark) ++ [mark]

end Text
end ClearSilver
