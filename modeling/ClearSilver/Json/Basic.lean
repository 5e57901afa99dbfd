/-
# JSON values

A JSON value. A number written with a fraction or an exponent is kept as a
decimal, an integer times a power of ten, apart from the integers. The three
words for numbers that are not finite are values as well. The members of an
object stay in the order they are written in, and of members with one key the
last counts.

How deep a value nests is counted in levels, of which parts is said each time.

Key definitions: `NonFinite`, `Json`, `Json.maxDigits`, `Json.member?`,
`Json.levels`, `Json.render`.
Key theorems: `Json.levels_mono`.
-/
import ClearSilver.Text.JsonString

namespace ClearSilver

/-- The numbers that are not finite. -/
inductive NonFinite
  | nan | infinity | minusInfinity
deriving DecidableEq

namespace NonFinite

def text : NonFinite → Text
  | nan => "NaN"
  | infinity => "Infinity"
  | minusInfinity => "-Infinity"

end NonFinite

inductive Json
  | null
  | bool (b : Bool)
  | integer (n : Int)
  /-- `mantissa * 10 ^ exponent` -/
  | decimal (mantissa exponent : Int)
  | nonFinite (n : NonFinite)
  | string (t : Text)
  | array (items : List Json)
  | object (members : List (Text × Json))

namespace Json

/-- The most digits that are read as the digits of an integer. -/
def maxDigits : Nat := 4300

/-- The last value under a key. -/
def member? {α : Type} (key : Text) : List (Text × α) → Option α
  | [] => none
  | (k, v) :: r =>
    match member? key r with
    | some w => some w
    | none => if k = key then some v else none

/-- The text that a value is. -/
def text? : Json → Option Text
  | string t => some t
  | _ => none

/-- A value without parts. -/
def isScalar : Json → Bool
  | array _ | object _ => false
  | _ => true

/-! ### Levels -/

/-- Is there anything in an array or an object? -/
def hasParts : Json → Bool
  | array (_ :: _) | object (_ :: _) => true
  | _ => false

/-- Is this an object with anything in it? -/
def hasMembers : Json → Bool
  | object (_ :: _) => true
  | _ => false

mutual

/-- How many arrays and objects of those that count stand in each other. -/
def levels (counts : Json → Bool) : Json → Nat
  | array items => levelsOfItems counts items + (counts (array items)).toNat
  | object members => levelsOfMembers counts members + (counts (object members)).toNat
  | null | bool _ | integer _ | decimal _ _ | nonFinite _ | string _ => 0

def levelsOfItems (counts : Json → Bool) : List Json → Nat
  | [] => 0
  | v :: vs => max (levels counts v) (levelsOfItems counts vs)

def levelsOfMembers (counts : Json → Bool) : List (Text × Json) → Nat
  | [] => 0
  | (_, v) :: ms => max (levels counts v) (levelsOfMembers counts ms)

end

theorem toNat_mono {p q : Json → Bool} (h : ∀ v, p v → q v) (v : Json) :
    (p v).toNat ≤ (q v).toNat := by
  cases hp : p v with
  | false => exact Nat.zero_le _
  | true => exact Nat.le_of_eq (congrArg Bool.toNat (h v hp)).symm

mutual

/-- There are no fewer levels if more counts. -/
theorem levels_mono {p q : Json → Bool} (h : ∀ v, p v → q v) :
    ∀ v : Json, v.levels p ≤ v.levels q
  | array items => Nat.add_le_add (levelsOfItems_mono h items) (toNat_mono h _)
  | object members => Nat.add_le_add (levelsOfMembers_mono h members) (toNat_mono h _)
  | null | bool _ | integer _ | decimal _ _ | nonFinite _ | string _ => Nat.le_refl _

theorem levelsOfItems_mono {p q : Json → Bool} (h : ∀ v, p v → q v) :
    ∀ vs : List Json, levelsOfItems p vs ≤ levelsOfItems q vs
  | [] => Nat.le_refl _
  | v :: vs => Nat.max_le.mpr
    ⟨Nat.le_trans (levels_mono h v) (Nat.le_max_left _ _),
      Nat.le_trans (levelsOfItems_mono h vs) (Nat.le_max_right _ _)⟩

theorem levelsOfMembers_mono {p q : Json → Bool} (h : ∀ v, p v → q v) :
    ∀ ms : List (Text × Json), levelsOfMembers p ms ≤ levelsOfMembers q ms
  | [] => Nat.le_refl _
  | (_, v) :: ms => Nat.max_le.mpr
    ⟨Nat.le_trans (levels_mono h v) (Nat.le_max_left _ _),
      Nat.le_trans (levelsOfMembers_mono h ms) (Nat.le_max_right _ _)⟩

end

/-! ### Writing -/

/-- A line break with the indentation of a depth; nothing in the compact form. -/
def lineBreak (indent : Option Nat) (depth : Nat) : Text :=
  match indent with
  | none => []
  | some n => '\n' :: List.replicate (n * depth) ' '

/-- What stands between a key and its value. -/
def keyMark (indent : Option Nat) : Text := if indent.isSome then ": " else ":"

mutual

/-- A value as text: compact without an indent, else with each item on a line
of its own. -/
def render (indent : Option Nat) (depth : Nat) : Json → Text
  | null => "null"
  | bool true => "true"
  | bool false => "false"
  | integer n => signedDecimal n
  | decimal mantissa exponent => signedDecimal mantissa ++ "e" ++ signedDecimal exponent
  | nonFinite n => n.text
  | string t => t.jsonQuoted false
  | array [] => "[]"
  | array (v :: vs) =>
    "[" ++ lineBreak indent (depth + 1) ++ render indent (depth + 1) v ++
      renderItems indent (depth + 1) vs ++ lineBreak indent depth ++ "]"
  | object [] => "\x7b\x7d"
  | object ((k, v) :: ms) =>
    "\x7b" ++ lineBreak indent (depth + 1) ++ k.jsonQuoted false ++ keyMark indent ++
      render indent (depth + 1) v ++ renderMembers indent (depth + 1) ms ++
      lineBreak indent depth ++ "\x7d"

/-- The items after the first, each after a comma. -/
def renderItems (indent : Option Nat) (depth : Nat) : List Json → Text
  | [] => []
  | v :: vs =>
    "," ++ lineBreak indent depth ++ render indent depth v ++ renderItems indent depth vs

/-- The members after the first, each after a comma. -/
def renderMembers (indent : Option Nat) (depth : Nat) : List (Text × Json) → Text
  | [] => []
  | (k, v) :: ms =>
    "," ++ lineBreak indent depth ++ k.jsonQuoted false ++ keyMark indent ++
      render indent depth v ++ renderMembers indent depth ms

end

end Json
end ClearSilver
