/-
# Text as a list of characters

Sources, lexemes, names and messages are lists of characters, so every offset
and column counts characters. A literal is written as a string and read as
its list of characters.

`Text.upTo` cuts a text before the first suffix with a property: literal text
ends where a tag opens, a comment where the tag closes. It is the longest
initial part none of whose suffixes, taken with what follows, has the
property (`Text.upTo_append_after`, `Text.not_of_upTo`).

Key definitions: `Text`, `isBlank`, `Text.upTo`, `Text.after`, `Text.joined`,
`decimal`, `signedDecimal`.
Key theorems: `Text.upTo_append_after`, `Text.after_spec`, `Text.not_of_upTo`.
-/

namespace ClearSilver

/-- A text is its characters in order. -/
abbrev Text := List Char

instance : Coe String Text := ⟨String.toList⟩

/-- The four characters that separate words inside a tag. -/
def isBlank (c : Char) : Bool := c = ' ' || c = '\t' || c = '\r' || c = '\n'

/-- An ASCII digit. -/
def isDigit (c : Char) : Bool := '0' ≤ c && c ≤ '9'

/-- An ASCII letter. -/
def isLetter (c : Char) : Bool := ('a' ≤ c && c ≤ 'z') || ('A' ≤ c && c ≤ 'Z')

/-- A character of a word: an ASCII letter, an ASCII digit or `_`. -/
def isWordChar (c : Char) : Bool := isLetter c || isDigit c || c = '_'

/-- A hexadecimal digit in either case. -/
def isHexDigit (c : Char) : Bool :=
  isDigit c || ('a' ≤ c && c ≤ 'f') || ('A' ≤ c && c ≤ 'F')

namespace Text

/-! ### Cutting a text -/

/-- The part of a text before its first suffix with the property `p`, all of
it if no suffix has it. -/
def upTo (p : Text → Bool) : Text → Text
  | [] => []
  | c :: r => if p (c :: r) then [] else c :: upTo p r

/-- The first suffix with the property `p`, empty if there is none. -/
def after (p : Text → Bool) : Text → Text
  | [] => []
  | c :: r => if p (c :: r) then c :: r else after p r

/-- Nothing is lost in the cut. -/
theorem upTo_append_after (p : Text → Bool) : ∀ t : Text, upTo p t ++ after p t = t
  | [] => rfl
  | c :: r => by
    unfold upTo after
    split
    · rfl
    · simp [upTo_append_after p r]

/-- What follows the cut is empty or has the property. -/
theorem after_spec (p : Text → Bool) : ∀ t : Text, after p t = [] ∨ p (after p t) = true
  | [] => .inl rfl
  | c :: r => by
    unfold after
    split
    · exact .inr ‹_›
    · exact after_spec p r

/-- No suffix that begins inside the cut part has the property. -/
theorem not_of_upTo (p : Text → Bool) : ∀ (t u v : Text), upTo p t = u ++ v → v ≠ [] →
    p (v ++ after p t) = false
  | [], u, v, h, hv => by simp [upTo] at h; exact absurd h.2 hv
  | c :: r, u, v, h, hv => by
    unfold upTo at h
    unfold after
    split at h
    · simp at h; exact absurd h.2 hv
    · rename_i hp
      rw [if_neg hp]
      cases u with
      | nil =>
        simp only [List.nil_append] at h
        subst h
        simpa [upTo_append_after] using hp
      | cons d u =>
        simp only [List.cons_append, List.cons.injEq] at h
        exact not_of_upTo p r u v h.2 hv

/-! ### Putting texts together -/

/-- The items with the separator between each two. -/
def joined (separator : Text) : List Text → Text
  | [] => []
  | [t] => t
  | t :: u :: r => t ++ separator ++ joined separator (u :: r)

/-- The text without the characters with the property `p` at either end. -/
def trimmed (p : Char → Bool) (t : Text) : Text :=
  ((t.dropWhile p).reverse.dropWhile p).reverse

/-- Does the text begin with these characters? -/
def startsWith (t start : Text) : Bool := start.isPrefixOf t

end Text

/-! ### Numbers as text -/

/-- A natural number in decimal digits. -/
def decimal (n : Nat) : Text := Nat.toDigits 10 n

/-- An integer in decimal digits, after `-` if it is negative. -/
def signedDecimal : Int → Text
  | .ofNat n => decimal n
  | .negSucc n => '-' :: decimal (n + 1)

/-- The lowest `width` hexadecimal digits of a number, in lower case. -/
def hexDigits : (width : Nat) → Nat → Text
  | 0, _ => []
  | width + 1, n => hexDigits width (n / 16) ++ [Nat.digitChar (n % 16)]

end ClearSilver
