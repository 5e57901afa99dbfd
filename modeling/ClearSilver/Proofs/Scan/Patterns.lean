/-
# The patterns of the lexemes

The lexemes of a tag told apart from how they are looked for: each kind has a
pattern, a language of texts put together from runs of characters and fixed
texts, and no pattern comes before another one. A word is in one of several
patterns, as it is a keyword, a number or neither; what the patterns of one mode
hold together are its lexemes (`mem_commandPatterns`, `mem_argumentPatterns`).

Key definitions: `oneOf`, `manyOf`, `Pattern`, `commandPatterns`, `argumentPatterns`,
`Pattern.IsAmong`.
Key theorems: `mem_kstar_oneOf`, `mem_commandPatterns`, `mem_argumentPatterns`.
-/
import ClearSilver.Proofs.Scan.Lexeme
import Mathlib.Computability.Language

namespace ClearSilver

open Computability

/-! ### Runs of characters -/

/-- The texts of one character of this sort. -/
def oneOf (p : Char → Bool) : Language Char := {t : Text | ∃ c, p c = true ∧ t = [c]}

/-- The runs of one or more characters of this sort. -/
def manyOf (p : Char → Bool) : Language Char := oneOf p * (oneOf p)∗

variable {p : Char → Bool} {x : Text}

theorem mem_oneOf : x ∈ oneOf p ↔ ∃ c, p c = true ∧ x = [c] := Iff.rfl

theorem mem_kstar_oneOf : x ∈ (oneOf p)∗ ↔ x.all p = true := by
  rw [Language.mem_kstar]
  constructor
  · rintro ⟨runs, rfl, hruns⟩
    rw [List.all_eq_true]
    intro c hc
    obtain ⟨run, hrun, hc⟩ := List.mem_flatten.mp hc
    obtain ⟨d, hd, rfl⟩ := hruns run hrun
    rwa [List.mem_singleton.mp hc]
  · intro hx
    refine ⟨x.map fun c => [c], ?_, fun y hy => ?_⟩
    · exact (List.flatMap_singleton' x).symm
    · obtain ⟨c, hc, rfl⟩ := List.mem_map.mp hy
      exact ⟨c, List.all_eq_true.mp hx c hc, rfl⟩

theorem mem_manyOf : x ∈ manyOf p ↔ x ≠ [] ∧ x.all p = true := by
  rw [manyOf, Language.mem_mul]
  constructor
  · rintro ⟨_, ⟨c, hc, rfl⟩, w, hw, rfl⟩
    rw [mem_kstar_oneOf] at hw
    exact ⟨by simp, by simp [hc, hw]⟩
  · rintro ⟨hne, hx⟩
    obtain ⟨c, w, rfl⟩ := List.exists_cons_of_ne_nil hne
    rw [List.all_cons, Bool.and_eq_true] at hx
    exact ⟨[c], ⟨c, hx.1, rfl⟩, w, mem_kstar_oneOf.mpr hx.2, rfl⟩

/-! ### Patterns -/

/-- The texts of a sort of lexeme, and its kind. -/
structure Pattern where
  texts : Language Char
  kind : Token.Kind

/-- Is the text one of a pattern of this kind? -/
def Pattern.IsAmong (ps : List Pattern) (k : Token.Kind) (x : Text) : Prop :=
  ∃ p ∈ ps, p.kind = k ∧ x ∈ p.texts

/-- The words in command position. -/
def commandWords : Language Char := oneOf isLetter * (oneOf fun c => isWordChar c || c = '-')∗

/-- The spellings of keywords. -/
def keywordTexts : Language Char := {t : Text | ∃ k, (t, k) ∈ Keyword.spellings}

/-- A mark with the blanks on both sides of it. -/
def amongBlanks (c : Char) : Language Char := (oneOf isBlank)∗ * {[c]} * (oneOf isBlank)∗

/-- The patterns of what stands between `<?cs` and the arguments of a tag. -/
def commandPatterns : List Pattern :=
  [⟨(oneOf isBlank)∗ * {("?>" : Text)}, .tagClose⟩,
   ⟨amongBlanks ':', .softDelimiter⟩,
   ⟨amongBlanks '!', .hardDelimiter⟩,
   ⟨manyOf isBlank, .softDelimiter⟩,
   ⟨{("#" : Text)}, .commentStart⟩,
   ⟨{("/" : Text)}, .symbol .slash⟩,
   ⟨commandWords - keywordTexts, .word⟩] ++
  Keyword.spellings.map fun s => ⟨{s.1}, .keyword s.2⟩

/-- The strings between two quotes of one sort. -/
def quotedBy (q : Char) : Language Char := {[q]} * (oneOf fun c => c ≠ q)∗ * {[q]}

/-- The numbers of hexadecimal digits. -/
def hexNumbers : Language Char := ({("0x" : Text)} + {("0X" : Text)}) * manyOf isHexDigit

/-- The patterns of what stands among the arguments of a tag. -/
def argumentPatterns : List Pattern :=
  [⟨{("?>" : Text)}, .tagClose⟩,
   ⟨quotedBy '"', .string⟩,
   ⟨quotedBy '\'', .string⟩,
   ⟨manyOf isDigit, .decimal⟩,
   ⟨hexNumbers, .hex⟩,
   ⟨manyOf isWordChar - (manyOf isDigit + hexNumbers), .word⟩] ++
  Symbol.all.map fun s => ⟨{s.text}, .symbol s⟩

/-! ### Texts of a pattern -/

theorem mem_text {t : Text} : x ∈ ({t} : Language Char) ↔ x = t := Iff.rfl

theorem mem_blanks_close : x ∈ (oneOf isBlank)∗ * {("?>" : Text)} ↔
    ∃ b : Text, b.all isBlank = true ∧ x = b ++ "?>" := by
  simp only [Language.mem_mul, mem_kstar_oneOf, mem_text, exists_eq_left, eq_comm]

theorem mem_amongBlanks {c : Char} : x ∈ amongBlanks c ↔
    ∃ b b' : Text, b.all isBlank = true ∧ b'.all isBlank = true ∧ x = b ++ c :: b' := by
  simp only [amongBlanks, Language.mem_mul, mem_kstar_oneOf, mem_text]
  constructor
  · rintro ⟨_, ⟨b, hb, _, rfl, rfl⟩, b', hb', rfl⟩
    exact ⟨b, b', hb, hb', by simp⟩
  · rintro ⟨b, b', hb, hb', rfl⟩
    exact ⟨_, ⟨b, hb, _, rfl, rfl⟩, b', hb', by simp⟩

theorem mem_commandWords : x ∈ commandWords ↔ IsCommandWord x := by
  simp only [commandWords, Language.mem_mul, mem_kstar_oneOf, mem_oneOf]
  constructor
  · rintro ⟨_, ⟨c, hc, rfl⟩, w, hw, rfl⟩
    exact ⟨hc, hw⟩
  · intro hx
    cases x with
    | nil => exact hx.elim
    | cons c w => exact ⟨_, ⟨c, hx.1, rfl⟩, w, hx.2, rfl⟩

theorem mem_quotedBy {q : Char} : x ∈ quotedBy q ↔ ∃ w : Text, q ∉ w ∧ x = q :: w ++ [q] := by
  have hall : ∀ w : Text, w.all (fun c => c ≠ q) = true ↔ q ∉ w := by
    intro w
    rw [List.all_eq_true]
    exact ⟨fun h hq => by simpa using h q hq, fun h c hc => decide_eq_true fun hcq => h (hcq ▸ hc)⟩
  simp only [quotedBy, Language.mem_mul, mem_kstar_oneOf, mem_text, hall]
  constructor
  · rintro ⟨_, ⟨_, rfl, w, hw, rfl⟩, _, rfl, rfl⟩
    exact ⟨w, hw, rfl⟩
  · rintro ⟨w, hw, rfl⟩
    exact ⟨_, ⟨_, rfl, w, hw, rfl⟩, _, rfl, rfl⟩

theorem mem_digits : x ∈ manyOf isDigit ↔ isDecimalWord x = true := by
  rw [mem_manyOf, isDecimalWord, Bool.and_eq_true, Bool.not_eq_true', List.isEmpty_eq_false_iff]

theorem mem_hexNumbers : x ∈ hexNumbers ↔ isHexWord x = true := by
  simp only [hexNumbers, Language.mem_mul, Language.mem_add, mem_text, mem_manyOf]
  constructor
  · rintro ⟨_, rfl | rfl, w, ⟨hne, hw⟩, rfl⟩
    all_goals
      obtain ⟨d, w, rfl⟩ := List.exists_cons_of_ne_nil hne
      rw [List.all_cons] at hw
      simpa [isHexWord] using hw
  · intro hx
    unfold isHexWord at hx
    split at hx
    · rename_i c d w
      simp only [Bool.and_eq_true, Bool.or_eq_true, decide_eq_true_eq] at hx
      obtain ⟨⟨hc, hd⟩, hw⟩ := hx
      refine ⟨['0', c], ?_, d :: w, ⟨by simp, by simp [hd, hw]⟩, rfl⟩
      rcases hc with rfl | rfl
      · exact .inl rfl
      · exact .inr rfl
    · cases hx

theorem mem_plainWords :
    x ∈ manyOf isWordChar - (manyOf isDigit + hexNumbers) ↔ isPlainWord x = true := by
  rw [Language.mem_sub, Language.mem_add, mem_manyOf, mem_digits, mem_hexNumbers, isPlainWord_iff,
    IsArgumentWord, not_or, Bool.not_eq_true, Bool.not_eq_true]

/-! ### The patterns are those of the lexemes -/

theorem Keyword.ofText?_eq_some_iff {t : Text} {k : Keyword} :
    ofText? t = some k ↔ (t, k) ∈ spellings := by
  refine ⟨mem_spellings, fun h => ?_⟩
  have hall : ∀ s ∈ spellings, ofText? s.1 = some s.2 := by decide +kernel
  exact hall _ h

theorem Keyword.ofText?_eq_none_iff {t : Text} : ofText? t = none ↔ t ∉ keywordTexts := by
  rw [Option.eq_none_iff_forall_ne_some]
  simp only [Ne, ofText?_eq_some_iff]
  exact not_exists.symm

/-- Every keyword is spelled as a word. -/
theorem isCommandWord_of_mem_spellings {t : Text} {k : Keyword} (h : (t, k) ∈ Keyword.spellings) :
    IsCommandWord t := by
  have hall : ∀ s ∈ Keyword.spellings, s.1 ≠ [] ∧ s.1.head?.all isLetter = true ∧
      s.1.tail.all (fun c => isWordChar c || c = '-') = true := by decide +kernel
  obtain ⟨hne, hhead, htail⟩ := hall _ h
  obtain ⟨c, w, rfl⟩ := List.exists_cons_of_ne_nil hne
  exact ⟨hhead, htail⟩

/-- A keyword is one of its spellings. -/
theorem exists_spelling_iff {k : Keyword} :
    (∃ s ∈ Keyword.spellings, s.2 = k ∧ x = s.1) ↔
      IsCommandWord x ∧ Keyword.ofText? x = some k := by
  rw [Keyword.ofText?_eq_some_iff]
  constructor
  · rintro ⟨s, hs, rfl, rfl⟩
    exact ⟨isCommandWord_of_mem_spellings hs, hs⟩
  · rintro ⟨-, hs⟩
    exact ⟨_, hs, rfl, rfl⟩

namespace Pattern

variable {k : Token.Kind}

theorem isAmong_cons {q : Pattern} {ps : List Pattern} :
    IsAmong (q :: ps) k x ↔ q.kind = k ∧ x ∈ q.texts ∨ IsAmong ps k x :=
  List.exists_mem_cons_iff ..

/-- One pattern for each of some items. -/
theorem isAmong_map {α : Type} {e : α → Pattern} {items : List α} :
    IsAmong (items.map e) k x ↔ ∃ a ∈ items, (e a).kind = k ∧ x ∈ (e a).texts := by
  simp only [IsAmong, List.mem_map, exists_exists_and_eq_and]

end Pattern

/-- **The command patterns** are those of the lexemes in command position. -/
theorem mem_commandPatterns {k : Token.Kind} :
    Pattern.IsAmong commandPatterns k x ↔ Mode.command.IsLexeme k x := by
  simp only [commandPatterns, List.cons_append, List.nil_append, Pattern.isAmong_cons,
    Pattern.isAmong_map, mem_blanks_close, mem_amongBlanks, mem_manyOf, mem_text,
    Language.mem_sub, mem_commandWords, ← Keyword.ofText?_eq_none_iff]
  cases k with
  | keyword k => simpa [Mode.IsLexeme] using exists_spelling_iff
  | symbol s =>
    suffices hslash : Symbol.slash = s ∧ x = ['/'] ↔ s = .slash ∧ x = s.text by
      simpa [Mode.IsLexeme] using hslash
    constructor
    · rintro ⟨rfl, rfl⟩
      exact ⟨rfl, rfl⟩
    · rintro ⟨rfl, rfl⟩
      exact ⟨rfl, rfl⟩
  | _ => simp [Mode.IsLexeme]

/-- **The patterns among the arguments** are those of the lexemes there. -/
theorem mem_argumentPatterns {k : Token.Kind} :
    Pattern.IsAmong argumentPatterns k x ↔ Mode.arguments.IsLexeme k x := by
  simp only [argumentPatterns, List.cons_append, List.nil_append, Pattern.isAmong_cons,
    Pattern.isAmong_map, mem_quotedBy, mem_digits, mem_hexNumbers, mem_plainWords, mem_text]
  cases k with
  | symbol s => simp [Mode.IsLexeme, Symbol.mem_all]
  | _ => simp [Mode.IsLexeme]

end ClearSilver
