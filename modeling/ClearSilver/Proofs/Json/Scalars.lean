/-
# Numbers and strings read back

What is written for a number or a string is read back, and what follows is
left. A number must not go on into what follows (`EndsNumber`), and it is no
JSON at all if it has more digits than are read (`Json.fits`). A string comes
back whatever its characters are.

Key definitions: `EndsNumber`, `Json.leastLong`.
Key theorems: `Json.readNumber_integer`, `Json.readNumber_decimal`,
`Json.readNumber_nonFinite`, `Json.readString_escaped`.
-/
import ClearSilver.Json.Reader
import Mathlib.Data.List.TakeWhile

namespace ClearSilver

/-! ### Decimal digits -/

theorem isDigit_of_mem_decimal {n : Nat} {c : Char} (h : c ∈ decimal n) : isDigit c = true := by
  have hdigit := Nat.isDigit_of_mem_toDigits (by decide) (by decide) h
  simpa [Char.isDigit, isDigit, Char.le_def] using hdigit

theorem decimal_ne_nil (n : Nat) : decimal n ≠ [] := Nat.toDigits_ne_nil

theorem digitsValue_decimal (n : Nat) : Json.digitsValue (decimal n) = n :=
  Nat.ofDigitChars_toDigits (by decide) (by decide)

theorem length_decimal_le_iff (n : Nat) {k : Nat} (hk : 0 < k) :
    (decimal n).length ≤ k ↔ n < Nat.pow 10 k := Nat.length_toDigits_le_iff (by decide) hk

/-- Only zero begins with a zero. -/
theorem head?_decimal_ne {n : Nat} (hn : 0 < n) : (decimal n).head? ≠ some '0' := by
  induction n using Nat.strong_induction_on with
  | _ n ih =>
    by_cases hlt : n < 10
    · rw [decimal, Nat.toDigits_of_lt_base hlt]
      have hdigits : ∀ m < 10, 0 < m → [Nat.digitChar m].head? ≠ some '0' := by decide
      exact hdigits n hlt hn
    · have hstep : decimal n = decimal (n / 10) ++ [(n % 10).digitChar] :=
        Nat.toDigits_of_base_le (by decide) (by omega)
      obtain ⟨d, ds, hcons⟩ := List.exists_cons_of_ne_nil (decimal_ne_nil (n / 10))
      have hhead := ih (n / 10) (by omega) (by omega)
      rw [hcons, List.head?_cons] at hhead
      rw [hstep, hcons, List.cons_append, List.head?_cons]
      exact hhead

/-- The digits of a number begin with a digit, of a positive one with no zero. -/
theorem exists_decimal_eq_cons (n : Nat) :
    ∃ d ds, decimal n = d :: ds ∧ isDigit d = true ∧ (0 < n → d ≠ '0') := by
  obtain ⟨d, ds, h⟩ := List.exists_cons_of_ne_nil (decimal_ne_nil n)
  refine ⟨d, ds, h, isDigit_of_mem_decimal (h ▸ List.mem_cons_self), fun hn hd => ?_⟩
  exact head?_decimal_ne hn (by rw [h, List.head?_cons, hd])

theorem decimal_append_ne (n : Nat) (rest : Text) {c : Char} (hc : isDigit c = false) (r : Text) :
    decimal n ++ rest ≠ c :: r := by
  obtain ⟨d, ds, hcons, hd, -⟩ := exists_decimal_eq_cons n
  intro h
  rw [hcons, List.cons_append, List.cons.injEq] at h
  rw [h.1, hc] at hd
  cases hd

/-! ### Numbers -/

/-- Can a number go on with this character? -/
def continuesNumber (c : Char) : Bool := isDigit c || c = '.' || c = 'e' || c = 'E'

/-- No number goes on into this text. -/
def EndsNumber (rest : Text) : Prop := ∀ c ∈ rest.head?, continuesNumber c = false

namespace Json

variable {limits : Limits} {rest : Text}

/-- The least natural number that has too many digits to be read. -/
@[irreducible]
def leastLong : Nat := Nat.pow 10 maxDigits

theorem fits_standard_iff (n : Int) : fits .standard n = true ↔ n.natAbs < leastLong := by
  have hmost : Limits.standard.digits (n < 0) = maxDigits := rfl
  rw [fits, decide_eq_true_iff, hmost]
  unfold leastLong
  exact length_decimal_le_iff _ (by decide)

theorem fits_leastLong : fits .standard leastLong = false := by
  rw [Bool.eq_false_iff, Ne, fits_standard_iff, Int.natAbs_natCast]
  exact Nat.lt_irrefl leastLong

theorem readDigits_append {ds : Text} (hne : ds ≠ []) (hds : ∀ c ∈ ds, isDigit c = true)
    (hrest : ∀ c ∈ rest.head?, isDigit c = false) : readDigits (ds ++ rest) = some (ds, rest) := by
  have hstop : rest.takeWhile isDigit = [] ∧ rest.dropWhile isDigit = rest := by
    cases rest with
    | nil => exact ⟨rfl, rfl⟩
    | cons c r =>
      have hc := hrest c rfl
      simp [hc]
  have htake : (ds ++ rest).takeWhile isDigit = ds := by
    rw [List.takeWhile_append_of_pos hds, hstop.1, List.append_nil]
  have hdrop : (ds ++ rest).dropWhile isDigit = rest := by
    rw [List.dropWhile_append_of_pos hds, hstop.2]
  unfold readDigits
  rw [htake, hdrop]
  simp [hne]

theorem readDigits_decimal (n : Nat) (hrest : ∀ c ∈ rest.head?, isDigit c = false) :
    readDigits (ClearSilver.decimal n ++ rest) = some (ClearSilver.decimal n, rest) :=
  readDigits_append (decimal_ne_nil n) (fun _ => isDigit_of_mem_decimal) hrest

/-- The digits before a point or an exponent are read. -/
theorem readWhole_decimal (n : Nat) (hrest : ∀ c ∈ rest.head?, isDigit c = false) :
    readWhole (ClearSilver.decimal n ++ rest) = some (ClearSilver.decimal n, rest) := by
  have hdigits := readDigits_decimal n hrest
  obtain ⟨d, ds, hcons, -, hzero⟩ := exists_decimal_eq_cons n
  by_cases hn : n = 0
  · subst hn
    rfl
  · have hd := hzero (Nat.pos_of_ne_zero hn)
    rw [hcons] at hdigits ⊢
    rw [List.cons_append, readWhole.eq_2 _ (by simpa using hd), ← List.cons_append, hdigits]

theorem head?_not_isDigit (h : EndsNumber rest) : ∀ c ∈ rest.head?, isDigit c = false := by
  intro c hc
  have hcont := h c hc
  simp only [continuesNumber, Bool.or_eq_false_iff] at hcont
  exact hcont.1.1.1

/-- Without a point there are no more digits. -/
theorem readFraction_none (h : ∀ c ∈ rest.head?, c ≠ '.') :
    readFraction rest = some ([], rest) := by
  cases rest with
  | nil => rfl
  | cons c r => exact readFraction.eq_2 _ fun r' hr => h c rfl (List.cons.inj hr).1

theorem readExponent_none (h : EndsNumber rest) : readExponent rest = some (none, rest) := by
  cases rest with
  | nil => rfl
  | cons c r =>
    have hcont := h c rfl
    simp only [continuesNumber, Bool.or_eq_false_iff] at hcont
    unfold readExponent
    exact if_neg (by simp [hcont.1.2, hcont.2])

theorem readExponent_signedDecimal (n : Int) (h : EndsNumber rest) :
    readExponent ('e' :: (signedDecimal n ++ rest)) = some (some n, rest) := by
  cases n with
  | ofNat k =>
    have hminus := decimal_append_ne k rest (c := '-') (by decide)
    have hplus := decimal_append_ne k rest (c := '+') (by decide)
    rw [signedDecimal, readExponent.eq_3 _ _ hminus hplus, if_pos (by decide),
      readDigits_decimal k (head?_not_isDigit h)]
    simp [digitsValue_decimal]
  | negSucc k =>
    rw [signedDecimal, List.cons_append, readExponent, if_pos (by decide),
      readDigits_decimal (k + 1) (head?_not_isDigit h)]
    simp [digitsValue_decimal, Int.negSucc_eq]

theorem readUnsigned_integer (most : Nat) (sign : Int) (n : Nat) (h : EndsNumber rest) :
    readUnsigned most sign (ClearSilver.decimal n ++ rest) =
      if (ClearSilver.decimal n).length ≤ most then some (integer (sign * n), rest)
      else none := by
  have hpoint : ∀ c ∈ rest.head?, c ≠ '.' := by
    intro c hc hdot
    have hcont := h c hc
    subst hdot
    simp [continuesNumber] at hcont
  rw [readUnsigned, readWhole_decimal n (head?_not_isDigit h), Option.filter_some]
  simp only [decide_eq_true_eq]
  split
  · simp [readFraction_none hpoint, readExponent_none h, digitsValue_decimal]
  · rfl

theorem readUnsigned_decimal (most : Nat) (sign : Int) (n : Nat) (exponent : Int)
    (h : EndsNumber rest) :
    readUnsigned most sign (ClearSilver.decimal n ++ 'e' :: (signedDecimal exponent ++ rest)) =
      if (ClearSilver.decimal n).length ≤ most then some (decimal (sign * n) exponent, rest)
      else none := by
  have hfraction : readFraction ('e' :: (signedDecimal exponent ++ rest)) =
      some ([], 'e' :: (signedDecimal exponent ++ rest)) := readFraction_none (by simp)
  rw [readUnsigned, readWhole_decimal n (by simp [isDigit]), Option.filter_some]
  simp only [decide_eq_true_eq]
  split
  · simp [hfraction, readExponent_signedDecimal exponent h, digitsValue_decimal]
  · rfl

/-- A sign before digits is the sign of the number. -/
theorem readNumber_signedDecimal (n : Int) :
    readNumber limits (signedDecimal n ++ rest) =
      readUnsigned (limits.digits (n < 0)) (if n < 0 then -1 else 1)
        (ClearSilver.decimal n.natAbs ++ rest) := by
  cases n with
  | ofNat k =>
    have hne := fun {c : Char} => decimal_append_ne k rest (c := c)
    have hsign : ¬ Int.ofNat k < 0 := by simp
    rw [signedDecimal, readNumber.eq_5 _ _ (hne (by decide)) (hne (by decide))
      (fun _ => hne (by decide) _) (hne (by decide)), if_neg hsign, decide_eq_false hsign]
    rfl
  | negSucc k =>
    have hsign : Int.negSucc k < 0 := by simp
    rw [signedDecimal, List.cons_append,
      readNumber.eq_4 _ _ (decimal_append_ne (k + 1) rest (by decide)), if_pos hsign,
      decide_eq_true hsign]
    rfl

theorem sign_mul_natAbs (n : Int) : (if n < 0 then -1 else 1) * (n.natAbs : Int) = n := by
  split <;> omega

/-- An integer is read back if its digits are few enough. -/
theorem readNumber_integer (limits : Limits) (n : Int) (h : EndsNumber rest) :
    readNumber limits (signedDecimal n ++ rest) =
      if fits limits n then some (integer n, rest) else none := by
  rw [readNumber_signedDecimal, readUnsigned_integer _ _ _ h, sign_mul_natAbs]
  simp only [fits, decide_eq_true_eq]

theorem readNumber_decimal (limits : Limits) (mantissa exponent : Int) (h : EndsNumber rest) :
    readNumber limits (signedDecimal mantissa ++ 'e' :: (signedDecimal exponent ++ rest)) =
      if fits limits mantissa then some (decimal mantissa exponent, rest) else none := by
  rw [readNumber_signedDecimal, readUnsigned_decimal _ _ _ _ h, sign_mul_natAbs]
  simp only [fits, decide_eq_true_eq]

theorem readWord_append (word : Text) (v : Json) :
    readWord word v (word ++ rest) = some (v, rest) := by
  simp [readWord, Text.startsWith]

theorem readNumber_nonFinite (limits : Limits) (n : NonFinite) (rest : Text) :
    readNumber limits (n.text ++ rest) = some (nonFinite n, rest) := by
  cases n with
  | nan => exact readWord_append "NaN" (nonFinite .nan)
  | infinity => exact readWord_append "Infinity" (nonFinite .infinity)
  | minusInfinity => exact readWord_append "-Infinity" (nonFinite .minusInfinity)

/-! ### Strings -/

theorem hexValue?_digitChar : ∀ n < 16, hexValue? (Nat.digitChar n) = some n := by decide

/-- Four hexadecimal digits give their number back. -/
theorem readUnit_hexDigits {n : Nat} (hn : n < 0x10000) :
    readUnit (hexDigits 4 n ++ rest) = some (n, rest) := by
  have hvalue := fun k => hexValue?_digitChar (k % 16) (Nat.mod_lt k (by decide))
  have hsum : ((n / 16 / 16 / 16 % 16 * 16 + n / 16 / 16 % 16) * 16 + n / 16 % 16) * 16 +
      n % 16 = n := by omega
  simp [hexDigits, readUnit, hvalue, hsum]

/-- A unit that is no half of a pair is a character. -/
theorem readCode_unit {n : Nat} (hn : n < 0x10000) (hhigh : ¬ (0xD800 ≤ n ∧ n ≤ 0xDBFF))
    (hlow : ¬ (0xDC00 ≤ n ∧ n ≤ 0xDFFF)) :
    readCode (hexDigits 4 n ++ rest) = some (Char.ofNat n, rest) := by
  rw [readCode, readUnit_hexDigits hn]
  simp [hhigh, hlow]

/-- Two units are a character together. -/
theorem readCode_pair {high low : Nat} (hhigh : 0xD800 ≤ high ∧ high ≤ 0xDBFF)
    (hlow : 0xDC00 ≤ low ∧ low ≤ 0xDFFF) :
    readCode (hexDigits 4 high ++ '\\' :: 'u' :: (hexDigits 4 low ++ rest)) =
      some (pairedChar high low, rest) := by
  rw [readCode, readUnit_hexDigits (by omega)]
  simp [readUnit_hexDigits (show low < 0x10000 by omega), hhigh, hlow]

/-- A character beyond the first plane comes back from its pair. -/
theorem pairedChar_of_plane (c : Char) (h : 0x10000 ≤ c.toNat) :
    pairedChar (0xD800 + (c.toNat - 0x10000) / 0x400) (0xDC00 + (c.toNat - 0x10000) % 0x400) =
      c := by
  have hsum : 0x10000 + (0xD800 + (c.toNat - 0x10000) / 0x400 - 0xD800) * 0x400 +
      (0xDC00 + (c.toNat - 0x10000) % 0x400 - 0xDC00) = c.toNat := by omega
  rw [pairedChar, hsum, Char.ofNat_toNat]

/-- A character comes back from the codes of its UTF-16 units. -/
theorem readCode_utf16Units (c : Char) : ∃ t,
    ((Text.utf16Units c.toNat).flatMap fun u => ("\\u" : Text) ++ hexDigits 4 u) =
      '\\' :: 'u' :: t ∧ ∀ rest, readCode (t ++ rest) = some (c, rest) := by
  have hvalid : c.toNat < 0xD800 ∨ 0xDFFF < c.toNat ∧ c.toNat < 0x110000 := c.valid
  by_cases hplane : c.toNat < 0x10000
  · refine ⟨hexDigits 4 c.toNat, ?_, fun rest => ?_⟩
    · rw [Text.utf16Units, if_pos hplane, List.flatMap_singleton]
      rfl
    · rw [readCode_unit hplane (by omega) (by omega), Char.ofNat_toNat]
  · refine ⟨hexDigits 4 (0xD800 + (c.toNat - 0x10000) / 0x400) ++
      '\\' :: 'u' :: hexDigits 4 (0xDC00 + (c.toNat - 0x10000) % 0x400), ?_, fun rest => ?_⟩
    · rw [Text.utf16Units, if_neg hplane]
      simp
    · rw [List.append_assoc]
      apply (readCode_pair (by omega) (by omega)).trans
      rw [pairedChar_of_plane c (by omega)]

/-- A character is written as it is, or as an escape that stands for it. -/
theorem jsonEscaped_spec (ascii : Bool) (c : Char) :
    (Text.jsonEscaped ascii c = [c] ∧ c ≠ '"' ∧ c ≠ '\\' ∧ 0x20 ≤ c.toNat) ∨
      ∃ t, Text.jsonEscaped ascii c = '\\' :: t ∧
        ∀ rest, readEscape (t ++ rest) = some (c, rest) := by
  unfold Text.jsonEscaped
  by_cases hquote : c = '"'
  · exact .inr ⟨['"'], if_pos hquote, fun _ => by rw [hquote]; rfl⟩
  rw [if_neg hquote]
  by_cases hbackslash : c = '\\'
  · exact .inr ⟨['\\'], if_pos hbackslash, fun _ => by rw [hbackslash]; rfl⟩
  rw [if_neg hbackslash]
  by_cases hb : c = '\x08'
  · exact .inr ⟨['b'], if_pos hb, fun _ => by rw [hb]; rfl⟩
  rw [if_neg hb]
  by_cases ht : c = '\t'
  · exact .inr ⟨['t'], if_pos ht, fun _ => by rw [ht]; rfl⟩
  rw [if_neg ht]
  by_cases hn : c = '\n'
  · exact .inr ⟨['n'], if_pos hn, fun _ => by rw [hn]; rfl⟩
  rw [if_neg hn]
  by_cases hf : c = '\x0c'
  · exact .inr ⟨['f'], if_pos hf, fun _ => by rw [hf]; rfl⟩
  rw [if_neg hf]
  by_cases hr : c = '\r'
  · exact .inr ⟨['r'], if_pos hr, fun _ => by rw [hr]; rfl⟩
  rw [if_neg hr]
  by_cases hcode : (decide (c.toNat < 0x20) || (ascii && decide (0x7E < c.toNat))) = true
  · obtain ⟨t, ht, hread⟩ := readCode_utf16Units c
    exact .inr ⟨'u' :: t, by rw [if_pos hcode, ht], hread⟩
  · have hcontrol : ¬ c.toNat < 0x20 := fun h => hcode (by simp [h])
    exact .inl ⟨if_neg hcode, hquote, hbackslash, Nat.le_of_not_lt hcontrol⟩

/-- One character of a string comes back from what is written for it. -/
theorem readString_jsonEscaped (ascii : Bool) (c : Char) (budget : Nat) :
    readString (budget + 1) (Text.jsonEscaped ascii c ++ rest) =
      (readString budget rest).map fun (u, r) => (c :: u, r) := by
  obtain ⟨heq, hquote, hbackslash, hcontrol⟩ | ⟨t, heq, hescape⟩ := jsonEscaped_spec ascii c
  · rw [heq, List.singleton_append, readString, if_neg hquote, if_neg hbackslash,
      if_neg (Nat.not_lt.mpr hcontrol), Option.map_eq_bind]
    rfl
  · rw [heq, List.cons_append, readString, if_neg (by decide), if_pos rfl, hescape,
      Option.map_eq_bind]
    rfl

/-- **A string comes back.** One step for each character and one for the quote
are enough. -/
theorem readString_escaped (ascii : Bool) : ∀ (t : Text) (budget : Nat), t.length < budget →
    readString budget (t.flatMap (Text.jsonEscaped ascii) ++ '"' :: rest) = some (t, rest)
  | _, 0, h => absurd h (by omega)
  | [], budget + 1, _ => by
    rw [List.flatMap_nil, List.nil_append, readString, if_pos rfl]
  | c :: t, budget + 1, h => by
    have ih := readString_escaped ascii t budget (by simpa using h)
    rw [List.flatMap_cons, List.append_assoc, readString_jsonEscaped, ih]
    rfl

theorem jsonEscaped_ne_nil (ascii : Bool) (c : Char) : Text.jsonEscaped ascii c ≠ [] := by
  obtain ⟨heq, -⟩ | ⟨t, heq, -⟩ := jsonEscaped_spec ascii c <;> simp [heq]

/-- No character is written as nothing. -/
theorem length_le_escaped (ascii : Bool) :
    ∀ t : Text, t.length ≤ (t.flatMap (Text.jsonEscaped ascii)).length
  | [] => Nat.le_refl _
  | c :: t => by
    have hc := List.length_pos_iff.mpr (jsonEscaped_ne_nil ascii c)
    have ih := length_le_escaped ascii t
    simp only [List.flatMap_cons, List.length_append, List.length_cons]
    omega

/-- What stands behind the opening quote is read with a step for each
character that is left. -/
theorem readString_jsonQuoted (ascii : Bool) (t : Text) :
    readString ((t.flatMap (Text.jsonEscaped ascii) ++ '"' :: rest).length + 1)
      (t.flatMap (Text.jsonEscaped ascii) ++ '"' :: rest) = some (t, rest) := by
  have hlen := length_le_escaped ascii t
  exact readString_escaped ascii t _ (by simp only [List.length_append]; omega)

end Json
end ClearSilver
