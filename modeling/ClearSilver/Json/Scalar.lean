/-
# Values as texts and integers

A text is a string. Integers are read leniently: true and false are 1 and 0,
a decimal counts if the binary64 number nearest to it is whole and below
`2 ^ 63`, and a string counts if it is a numeral.

Key definitions: `Json.asText`, `Json.asOptionalText`, `Json.wholeDecimal`,
`Json.asInteger`.
-/
import ClearSilver.Json.Binary64
import ClearSilver.Json.Numeral

namespace ClearSilver
namespace Json

def asText : Json → Reading Text
  | string t => .ok t
  | _ => .issue .textExpected

def asOptionalText : Json → Reading (Option Text)
  | null => .ok none
  | string t => .ok (some t)
  | _ => .issue .textExpected

/-- The integer that a decimal is. -/
def wholeDecimal (mantissa exponent : Int) : Reading Int :=
  match Binary64.ofDecimal mantissa.natAbs exponent with
  | .infinite => .issue .notFinite
  | .finite m e =>
    match Binary64.whole? m e with
    | none => .issue .fractional
    | some n => if n < Nat.pow 2 63 then .ok (mantissa.sign * n) else .issue .outOfRange

def asInteger : Json → Reading Int
  | bool b => .ok (if b then 1 else 0)
  | integer n => .ok n
  | decimal mantissa exponent => wholeDecimal mantissa exponent
  | nonFinite _ => .issue .notFinite
  | string t => t.integer
  | null | array _ | object _ => .issue .integerExpected

end Json
end ClearSilver
