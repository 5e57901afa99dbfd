/-
# Decimals as binary64 numbers

A decimal is read as the binary64 number nearest to it, of two equally near
ones the one with an even significand; what is at least half a unit past the
largest finite number is infinite. Then it is known whether the number is
whole.

The rounding is exact. A decimal of more than 310 digits before the point is
infinite, and one whose first digit comes after 330 places is zero, so the
powers of ten that are computed stay small.

Key definitions: `Binary64`, `Binary64.ofRatio`, `Binary64.ofDecimal`,
`Binary64.whole?`.
-/
import ClearSilver.Text.Basic

namespace ClearSilver

/-- A binary64 number without its sign: `significand * 2 ^ exponent`, or
infinite. -/
inductive Binary64
  | finite (significand : Nat) (exponent : Int)
  | infinite
deriving DecidableEq

namespace Binary64

/-- Significands have 53 binary digits. -/
def significandBound : Nat := Nat.pow 2 53

/-- The nearest natural number to a ratio, of two equally near the even one. -/
def nearest (num den : Nat) : Nat :=
  let q := num / den
  let r := num % den
  if 2 * r < den then q
  else if den < 2 * r then q + 1
  else if q % 2 = 0 then q else q + 1

/-- A ratio divided by a power of two, to the nearest natural number. -/
def scaled (num den : Nat) (exponent : Int) : Nat :=
  if 0 ≤ exponent then nearest num (den * Nat.pow 2 exponent.toNat)
  else nearest (num * Nat.pow 2 (-exponent).toNat) den

/-- The exponent that leaves 53 binary digits before the point, but no less
than that of the smallest number. -/
def exponentOf (num den : Nat) : Int :=
  let guess : Int := (num.log2 : Int) - (den.log2 : Int) - 53
  let low := if scaled num den guess < significandBound then guess else guess + 1
  max low (-1074)

/-- The number nearest to a ratio of natural numbers. -/
def ofRatio (num den : Nat) : Binary64 :=
  let e := exponentOf num den
  let m := scaled num den e
  if 971 < e || (e = 971 && significandBound ≤ m) then infinite else finite m e

/-- The number nearest to `mantissa * 10 ^ exponent`. -/
def ofDecimal (mantissa : Nat) (exponent : Int) : Binary64 :=
  if mantissa = 0 then finite 0 0
  else
    let places := ((decimal mantissa).length : Int) + exponent
    if 310 < places then infinite
    else if places < -330 then finite 0 0
    else if 0 ≤ exponent then ofRatio (mantissa * Nat.pow 10 exponent.toNat) 1
    else ofRatio mantissa (Nat.pow 10 (-exponent).toNat)

/-- The natural number that a finite number is, if it is whole. -/
def whole? (significand : Nat) (exponent : Int) : Option Nat :=
  if 0 ≤ exponent then some (significand * Nat.pow 2 exponent.toNat)
  else if significand % Nat.pow 2 (-exponent).toNat = 0 then
    some (significand / Nat.pow 2 (-exponent).toNat)
  else none

end Binary64
end ClearSilver
