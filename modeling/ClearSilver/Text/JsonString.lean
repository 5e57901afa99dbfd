/-
# Strings of JSON text

A string of JSON text stands between double quotes. The quote, the backslash
and the control characters are always escaped; a writer that keeps to ASCII
also escapes every character after `~`, one beyond the first plane as two
UTF-16 units.

Key definitions: `Text.utf16Units`, `Text.jsonEscaped`, `Text.jsonQuoted`.
-/
import ClearSilver.Text.Basic

namespace ClearSilver
namespace Text

/-- The UTF-16 units of a code point. -/
def utf16Units (n : Nat) : List Nat :=
  if n < 0x10000 then [n]
  else [0xD800 + (n - 0x10000) / 0x400, 0xDC00 + (n - 0x10000) % 0x400]

/-- A character as it stands inside a JSON string. -/
def jsonEscaped (ascii : Bool) (c : Char) : Text :=
  if c = '"' then "\\\""
  else if c = '\\' then "\\\\"
  else if c = '\x08' then "\\b"
  else if c = '\t' then "\\t"
  else if c = '\n' then "\\n"
  else if c = '\x0c' then "\\f"
  else if c = '\r' then "\\r"
  else if c.toNat < 0x20 || (ascii && 0x7E < c.toNat) then
    (utf16Units c.toNat).flatMap fun u => "\\u" ++ hexDigits 4 u
  else [c]

/-- The text as a JSON string. -/
def jsonQuoted (ascii : Bool) (t : Text) : Text :=
  '"' :: t.flatMap (jsonEscaped ascii) ++ ['"']

end Text
end ClearSilver
