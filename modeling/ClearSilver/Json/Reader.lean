/-
# Reading JSON text

The reader takes strict JSON: no comma before a closing bracket, no control
character inside a string, no half of a surrogate pair alone, no sign or zero
before a number that the grammar does not have. It takes `NaN`, `Infinity`
and `-Infinity` as well. Each reader of a part takes the text that is left and
gives what it read with the text after it.

Readers have limits: a text that nests too deep, or holds a number with too
many digits before its point, is taken for no JSON (`Json.Limits`). An array
or an object with nothing in it is no level of its own.

Values hold values, so the reader of a value takes a budget; each use follows
a character that was read.

Key definitions: `Json.Limits`, `Json.readString`, `Json.readNumber`,
`Json.readValue`, `Json.ofText?`, `Json.within`.
-/
import ClearSilver.Json.Basic

namespace ClearSilver
namespace Json

/-- How far a reader goes. -/
structure Limits where
  /-- The most levels of arrays and objects. -/
  levels : Nat
  /-- The most digits before a point, in a number with a minus or in another. -/
  digits : (negative : Bool) → Nat

/-- The limits in use. The sign of a number is none of its digits; a reader that
counts it has one digit less for negative numbers. -/
def Limits.standard : Limits := ⟨200, fun _ => maxDigits⟩

/-- The text without the blanks at its head. -/
def pastBlanks (t : Text) : Text := t.dropWhile isBlank

/-! ### Strings -/

/-- The value of a hexadecimal digit. -/
def hexValue? (c : Char) : Option Nat :=
  if isDigit c then some (c.toNat - '0'.toNat)
  else if 'a' ≤ c && c ≤ 'f' then some (c.toNat - 'a'.toNat + 10)
  else if 'A' ≤ c && c ≤ 'F' then some (c.toNat - 'A'.toNat + 10)
  else none

/-- Four hexadecimal digits. -/
def readUnit : Text → Option (Nat × Text)
  | a :: b :: c :: d :: r => do
    let n := ((← hexValue? a) * 16 + (← hexValue? b)) * 16 + (← hexValue? c)
    return (n * 16 + (← hexValue? d), r)
  | _ => none

/-- The character that two UTF-16 units of a pair stand for. -/
def pairedChar (high low : Nat) : Char :=
  Char.ofNat (0x10000 + (high - 0xD800) * 0x400 + (low - 0xDC00))

/-- What follows `\u`: one unit, or the two of a pair. -/
def readCode (t : Text) : Option (Char × Text) := do
  let (unit, r) ← readUnit t
  if 0xD800 ≤ unit && unit ≤ 0xDBFF then
    match r with
    | '\\' :: 'u' :: r' =>
      let (low, r'') ← readUnit r'
      if 0xDC00 ≤ low && low ≤ 0xDFFF then return (pairedChar unit low, r'') else none
    | _ => none
  else if 0xDC00 ≤ unit && unit ≤ 0xDFFF then none
  else return (Char.ofNat unit, r)

/-- What follows a backslash. -/
def readEscape : Text → Option (Char × Text)
  | '"' :: r => some ('"', r)
  | '\\' :: r => some ('\\', r)
  | '/' :: r => some ('/', r)
  | 'b' :: r => some ('\x08', r)
  | 'f' :: r => some ('\x0c', r)
  | 'n' :: r => some ('\n', r)
  | 'r' :: r => some ('\r', r)
  | 't' :: r => some ('\t', r)
  | 'u' :: r => readCode r
  | _ => none

/-- The characters up to the closing quote. -/
def readString : (budget : Nat) → Text → Option (Text × Text)
  | 0, _ => none
  | _, [] => none
  | budget + 1, c :: r =>
    if c = '"' then some ([], r)
    else if c = '\\' then do
      let (d, r') ← readEscape r
      let (t, rest) ← readString budget r'
      return (d :: t, rest)
    else if c.toNat < 0x20 then none
    else do
      let (t, rest) ← readString budget r
      return (c :: t, rest)

/-! ### Numbers -/

/-- The number a run of digits stands for. -/
def digitsValue (ds : Text) : Nat := Nat.ofDigitChars 10 ds 0

/-- One or more digits. -/
def readDigits (t : Text) : Option (Text × Text) :=
  let ds := t.takeWhile isDigit
  if ds.isEmpty then none else some (ds, t.dropWhile isDigit)

/-- The digits before the point: a zero alone, or no zero first. -/
def readWhole : Text → Option (Text × Text)
  | '0' :: r => some (['0'], r)
  | t => readDigits t

/-- A point and digits, if there is a point. -/
def readFraction : Text → Option (Text × Text)
  | '.' :: r => readDigits r
  | t => some ([], t)

/-- The exponent, if there is one. -/
def readExponent : Text → Option (Option Int × Text)
  | c :: r =>
    if c = 'e' || c = 'E' then
      match r with
      | '-' :: r' => (readDigits r').map fun (ds, rest) => (some (-(digitsValue ds : Int)), rest)
      | '+' :: r' => (readDigits r').map fun (ds, rest) => (some (digitsValue ds : Int), rest)
      | r' => (readDigits r').map fun (ds, rest) => (some (digitsValue ds : Int), rest)
    else some (none, c :: r)
  | [] => some (none, [])

/-- A number without its sign, and with no more digits before its point than `most`. -/
def readUnsigned (most : Nat) (sign : Int) (t : Text) : Option (Json × Text) := do
  let (whole, r) ← (readWhole t).filter (·.1.length ≤ most)
  let (fraction, r') ← readFraction r
  let (exponent, rest) ← readExponent r'
  if fraction.isEmpty && exponent.isNone then return (integer (sign * digitsValue whole), rest)
  else
    return (decimal (sign * digitsValue (whole ++ fraction))
      (exponent.getD 0 - fraction.length), rest)

/-- A word of the language and the text after it. -/
def readWord (word : Text) (v : Json) (t : Text) : Option (Json × Text) :=
  if t.startsWith word then some (v, t.drop word.length) else none

/-- One of the numbers that are not finite. -/
def readNonFinite (n : NonFinite) (t : Text) : Option (Json × Text) :=
  readWord n.text (nonFinite n) t

def readNumber (limits : Limits) : Text → Option (Json × Text)
  | 'N' :: r => readNonFinite .nan ('N' :: r)
  | 'I' :: r => readNonFinite .infinity ('I' :: r)
  | '-' :: 'I' :: r => readNonFinite .minusInfinity ('-' :: 'I' :: r)
  | '-' :: r => readUnsigned (limits.digits true) (-1) r
  | t => readUnsigned (limits.digits false) 1 t

/-! ### Values -/

/-- The items after the first, up to the closing bracket. -/
def readItems (read : Text → Option (Json × Text)) :
    (budget : Nat) → Text → Option (List Json × Text)
  | 0, _ => none
  | budget + 1, t =>
    match pastBlanks t with
    | ']' :: r => some ([], r)
    | ',' :: r => do
      let (v, r') ← read r
      let (vs, rest) ← readItems read budget r'
      return (v :: vs, rest)
    | _ => none

/-- A key, a colon and a value. -/
def readMember (read : Text → Option (Json × Text)) (t : Text) :
    Option ((Text × Json) × Text) :=
  match pastBlanks t with
  | '"' :: r => do
    let (key, r') ← readString (r.length + 1) r
    match pastBlanks r' with
    | ':' :: r'' =>
      let (v, rest) ← read r''
      return ((key, v), rest)
    | _ => none
  | _ => none

/-- The members after the first, up to the closing brace. -/
def readMembers (read : Text → Option (Json × Text)) :
    (budget : Nat) → Text → Option (List (Text × Json) × Text)
  | 0, _ => none
  | budget + 1, t =>
    match pastBlanks t with
    | '\x7d' :: r => some ([], r)
    | ',' :: r => do
      let (m, r') ← readMember read r
      let (ms, rest) ← readMembers read budget r'
      return (m :: ms, rest)
    | _ => none

/-- A value and the text after it. -/
def readValue (limits : Limits) : (budget : Nat) → Text → Option (Json × Text)
  | 0, _ => none
  | budget + 1, t =>
    match pastBlanks t with
    | '"' :: r => (readString (r.length + 1) r).map fun (s, rest) => (string s, rest)
    | '[' :: r =>
      match pastBlanks r with
      | ']' :: rest => some (array [], rest)
      | _ => do
        let (v, r') ← readValue limits budget r
        let (vs, rest) ← readItems (readValue limits budget) budget r'
        return (array (v :: vs), rest)
    | '\x7b' :: r =>
      match pastBlanks r with
      | '\x7d' :: rest => some (object [], rest)
      | _ => do
        let (m, r') ← readMember (readValue limits budget) r
        let (ms, rest) ← readMembers (readValue limits budget) budget r'
        return (object (m :: ms), rest)
    | 'n' :: r => readWord "null" null ('n' :: r)
    | 't' :: r => readWord "true" (bool true) ('t' :: r)
    | 'f' :: r => readWord "false" (bool false) ('f' :: r)
    | r => readNumber limits r

/-- The value that a whole text is. -/
def ofText? (limits : Limits) (t : Text) : Option Json :=
  match readValue limits (t.length + 1) t with
  | some (v, rest) =>
    if (pastBlanks rest).isEmpty && v.levels hasParts ≤ limits.levels then some v else none
  | none => none

/-! ### Values within the limits -/

/-- Has an integer few enough digits to be read? -/
def fits (limits : Limits) (n : Int) : Bool :=
  (ClearSilver.decimal n.natAbs).length ≤ limits.digits (n < 0)

mutual

/-- Has each number of a value few enough digits to be read? -/
def readable (limits : Limits) : Json → Bool
  | integer n => fits limits n
  | decimal mantissa _ => fits limits mantissa
  | array items => readableItems limits items
  | object members => readableMembers limits members
  | null | bool _ | nonFinite _ | string _ => true

def readableItems (limits : Limits) : List Json → Bool
  | [] => true
  | v :: vs => readable limits v && readableItems limits vs

def readableMembers (limits : Limits) : List (Text × Json) → Bool
  | [] => true
  | (_, v) :: ms => readable limits v && readableMembers limits ms

end

/-- Does a value keep within the limits of a reader? -/
def within (limits : Limits) (v : Json) : Bool :=
  readable limits v && v.levels hasParts ≤ limits.levels

end Json
end ClearSilver
