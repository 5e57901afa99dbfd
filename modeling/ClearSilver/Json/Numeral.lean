/-
# Integers written in strings

A plain numeral is a zero, or digits that do not begin with zero, with or
without a minus before it. A string is brought into this form before it is
read: the white space at its ends and a plus go, then zeros and underscores
at its head, then a point with nothing but zeros after it, and then single
underscores. After leading zeros a minus may still come, so `0-1` is -1, and
after a minus no zero is left out, so `-01` is no numeral.

A numeral of more than `Json.maxDigits` digits is out of range, whatever
stands after them.

Key definitions: `plainNumeral`, `pastZeros`, `withoutZeroFraction`,
`withoutUnderscores`, `Text.integer`.
-/
import ClearSilver.Json.Reader
import ClearSilver.Json.Reading
import ClearSilver.Text.Space

namespace ClearSilver

/-- A zero alone, or digits of which the first is not zero. -/
def plainNatural : Text → Reading Nat
  | ['0'] => .ok 0
  | '0' :: _ => .issue .notANumeral
  | t =>
    let digits := t.takeWhile isDigit
    if Json.maxDigits < digits.length then .issue .outOfRange
    else if digits.isEmpty || digits.length ≠ t.length then .issue .notANumeral
    else .ok (Json.digitsValue digits)

/-- A natural number in plain form, or a minus and one. -/
def plainNumeral : Text → Reading Int
  | '-' :: r => (fun n : Nat => -(n : Int)) <$> plainNatural r
  | t => (fun n : Nat => (n : Int)) <$> plainNatural t

/-- A minus, or a digit that is not zero. -/
def beginsPlain (c : Char) : Bool := c = '-' || (isDigit c && c ≠ '0')

/-- What is left of a text past its zeros and underscores, the last of which
was `last`. It stays if a point follows or nothing does. -/
def pastZerosFrom (last : Char) : Text → Option Text
  | [] => some [last]
  | c :: r =>
    if c = '0' || c = '_' then pastZerosFrom c r
    else if c = '.' then some (last :: c :: r)
    else if beginsPlain c then some (c :: r)
    else none

/-- The text past its leading zeros. -/
def pastZeros : Text → Option Text
  | [] => none
  | c :: r =>
    if c = '0' then pastZerosFrom c r else if beginsPlain c then some (c :: r) else none

/-- The text before the first point, if there are zeros and nothing else after it. -/
def withoutZeroFraction (t : Text) : Text :=
  match t.dropWhile (· ≠ '.') with
  | _ :: d :: ds => if (d :: ds).all (· = '0') then t.takeWhile (· ≠ '.') else t
  | _ => t

/-- Are there two underscores side by side? -/
def hasDoubleUnderscore : Text → Bool
  | '_' :: '_' :: _ => true
  | _ :: r => hasDoubleUnderscore r
  | [] => false

/-- The text without its underscores, if each stands alone between two others. -/
def withoutUnderscores (t : Text) : Text :=
  if t.head? = some '_' || t.getLast? = some '_' || hasDoubleUnderscore t then t
  else t.filter (· ≠ '_')

/-- The text without a plus at its head, which no minus may follow. -/
def withoutPlus : Text → Option Text
  | '+' :: '-' :: _ => none
  | '+' :: r => some r
  | t => some t

/-- The integer that a text is. -/
def Text.integer (t : Text) : Reading Int :=
  match withoutPlus (t.trimmed isWhiteSpace) >>= pastZeros with
  | none => .issue .notANumeral
  | some s => plainNumeral (withoutUnderscores (withoutZeroFraction s))

end ClearSilver
