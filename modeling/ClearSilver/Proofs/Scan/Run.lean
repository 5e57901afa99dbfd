/-
# Runs, cuts, marks and words

What a lexeme is made of: a run of characters of one sort, a text up to a
mark, the two marks of a tag, words and numbers, symbols. A run ends where the
text stops (`Text.Stops`), a cut text holds no mark (`Text.occurs_upTo`) and
gets none from what follows it (`Text.append_of_occurs`), and a symbol is the
longest one where no character follows that makes it grow
(`Symbol.atStart?_text`).

Key definitions: `Text.Stops`, `IsCommandWord`, `IsArgumentWord`, `Symbol.grows`.
Key theorems: `Text.takeWhile_run`, `Text.upTo_eq`, `Text.occurs_upTo`,
`opensTag_eq_true`, `closesTag_eq_true`, `Symbol.atStart?_text`.
-/
import ClearSilver.Mode.Lexeme
import ClearSilver.Tree.Canonical

namespace ClearSilver

/-! ### Runs of characters -/

/-- Does the text not go on with a character of this sort? -/
def Text.Stops (p : Char → Bool) : Text → Prop
  | [] => True
  | c :: _ => p c = false

namespace Text

theorem stops_dropWhile (p : Char → Bool) : ∀ t : Text, Stops p (t.dropWhile p)
  | [] => trivial
  | c :: r => by
    rw [List.dropWhile_cons]
    split
    · exact stops_dropWhile p r
    · simpa [Stops] using ‹¬ p c = true›

theorem takeWhile_of_stops {p : Char → Bool} {r : Text} (h : r.Stops p) : r.takeWhile p = [] := by
  cases r with
  | nil => rfl
  | cons c r => exact List.takeWhile_cons_of_neg (by simpa [Stops] using h)

theorem dropWhile_of_stops {p : Char → Bool} {r : Text} (h : r.Stops p) : r.dropWhile p = r := by
  cases r with
  | nil => rfl
  | cons c r => exact List.dropWhile_cons_of_neg (by simpa [Stops] using h)

/-- A run is taken whole where the text stops after it. -/
theorem takeWhile_run {p : Char → Bool} {w r : Text} (hw : w.all p = true) (hr : r.Stops p) :
    (w ++ r).takeWhile p = w := by
  rw [List.takeWhile_append_of_pos (List.all_eq_true.mp hw), takeWhile_of_stops hr,
    List.append_nil]

theorem dropWhile_run {p : Char → Bool} {w r : Text} (hw : w.all p = true) (hr : r.Stops p) :
    (w ++ r).dropWhile p = r := by
  rw [List.dropWhile_append_of_pos (List.all_eq_true.mp hw), dropWhile_of_stops hr]

/-- What stops where it begins holds no run. -/
theorem eq_nil_of_stops {p : Char → Bool} {w r : Text} (hw : w.all p = true)
    (h : Stops p (w ++ r)) : w = [] := by
  cases w with
  | nil => rfl
  | cons c w =>
    rw [List.all_cons, Bool.and_eq_true] at hw
    have hc : p c = false := h
    rw [hw.1] at hc
    cases hc

/-! ### Cuts -/

/-- What is cut off before the first suffix with a property holds no suffix
with it, taken with what follows. -/
theorem upTo_eq {p : Text → Bool} : ∀ {x r : Text},
    (∀ u v, x = u ++ v → v ≠ [] → p (v ++ r) = false) →
    (r = [] ∨ p r = true) → upTo p (x ++ r) = x
  | [], [], _, _ => rfl
  | [], c :: r, _, hr => by
    rw [List.nil_append, upTo, if_pos (hr.resolve_left (by simp))]
  | c :: x, r, hx, hr => by
    have hc : p (c :: x ++ r) = false := hx [] (c :: x) rfl (by simp)
    rw [List.cons_append] at hc ⊢
    rw [upTo, if_neg (by simp [hc]), upTo_eq (fun u v h hv => hx (c :: u) v (by rw [h]; rfl) hv) hr]

theorem occurs_eq_false {p : Text → Bool} : ∀ {t : Text},
    t.occurs p = false ↔ ∀ u v, t = u ++ v → p v = false
  | [] => by simp [occurs]
  | c :: r => by
    rw [occurs, Bool.or_eq_false_iff, occurs_eq_false (t := r)]
    constructor
    · rintro ⟨h, hr⟩ u v huv
      cases u with
      | nil => rw [List.nil_append] at huv; exact huv ▸ h
      | cons d u => exact hr u v (List.cons.inj huv).2
    · intro h
      exact ⟨h [] _ rfl, fun u v huv => h (c :: u) v (by rw [huv]; rfl)⟩

end Text

/-! ### The marks of a tag -/

theorem closesTag_eq_true {t : Text} : closesTag t = true ↔ ∃ r, t = '?' :: '>' :: r := by
  rw [closesTag, Text.startsWith_iff]
  constructor
  · rintro ⟨r, rfl⟩
    exact ⟨r, rfl⟩
  · rintro ⟨r, rfl⟩
    exact ⟨r, rfl⟩

theorem opensTag_eq_true {t : Text} :
    opensTag t = true ↔ ∃ c r, isBlank c = true ∧ t = '<' :: '?' :: 'c' :: 's' :: c :: r := by
  rw [opensTag, Bool.and_eq_true, Text.startsWith_iff]
  constructor
  · rintro ⟨⟨r, rfl⟩, h⟩
    cases r with
    | nil => simp at h
    | cons c r => exact ⟨c, r, by simpa using h, rfl⟩
  · rintro ⟨c, r, hc, rfl⟩
    exact ⟨⟨c :: r, rfl⟩, by simpa using hc⟩

/-- A tag that opens inside a text is not closed by what follows: it stands
there whole, if it is followed by the opening of another tag or nothing. -/
theorem opensTag_append {v r : Text} (hv : v ≠ []) (hr : r = [] ∨ opensTag r = true)
    (h : opensTag (v ++ r) = true) : opensTag v = true := by
  rcases hr with rfl | hr
  · simpa using h
  · obtain ⟨d, s, hd, rfl⟩ := opensTag_eq_true.mp hr
    obtain ⟨c, t, hc, ht⟩ := opensTag_eq_true.mp h
    rw [opensTag_eq_true]
    match v, hv with
    | [a], _ => simp at ht
    | [a, b], _ => simp at ht
    | [a, b, e], _ => simp at ht
    | [a, b, e, f], _ =>
      simp only [List.cons_append, List.nil_append, List.cons.injEq] at ht
      obtain ⟨-, -, -, -, rfl, -⟩ := ht
      exact absurd hc (by decide)
    | a :: b :: e :: f :: g :: v, _ =>
      simp only [List.cons_append, List.cons.injEq] at ht
      obtain ⟨rfl, rfl, rfl, rfl, rfl, -⟩ := ht
      exact ⟨_, v, hc, rfl⟩

theorem closesTag_append {v r : Text} (hv : v ≠ []) (hr : r = [] ∨ closesTag r = true)
    (h : closesTag (v ++ r) = true) : closesTag v = true := by
  rcases hr with rfl | hr
  · simpa using h
  · obtain ⟨s, rfl⟩ := closesTag_eq_true.mp hr
    obtain ⟨t, ht⟩ := closesTag_eq_true.mp h
    rw [closesTag_eq_true]
    match v, hv with
    | [a], _ => simp at ht
    | a :: b :: v, _ =>
      simp only [List.cons_append, List.cons.injEq] at ht
      obtain ⟨rfl, rfl, -⟩ := ht
      exact ⟨v, rfl⟩

/-- A text without a mark gets none from what follows it. -/
theorem Text.append_of_occurs {p : Text → Bool}
    (happ : ∀ {v r : Text}, v ≠ [] → r = [] ∨ p r = true → p (v ++ r) = true → p v = true)
    {x r : Text} (hx : x.occurs p = false) (hr : r = [] ∨ p r = true) (u v : Text)
    (huv : x = u ++ v) (hv : v ≠ []) : p (v ++ r) = false := by
  cases h : p (v ++ r) with
  | false => rfl
  | true => rw [← Text.occurs_eq_false.mp hx u v huv, happ hv hr h]

theorem opensTag_mono {v : Text} (w : Text) (h : opensTag v = true) : opensTag (v ++ w) = true := by
  obtain ⟨c, r, hc, rfl⟩ := opensTag_eq_true.mp h
  exact opensTag_eq_true.mpr ⟨c, r ++ w, hc, rfl⟩

theorem closesTag_mono {v : Text} (w : Text) (h : closesTag v = true) :
    closesTag (v ++ w) = true := by
  obtain ⟨r, rfl⟩ := closesTag_eq_true.mp h
  exact closesTag_eq_true.mpr ⟨r ++ w, rfl⟩

/-- What stands before the first mark holds none. -/
theorem Text.occurs_upTo {p : Text → Bool}
    (hmono : ∀ {v : Text} (w : Text), p v = true → p (v ++ w) = true) (hnil : p [] = false)
    {t : Text} : (upTo p t).occurs p = false := by
  rw [occurs_eq_false]
  intro u v huv
  by_cases hv : v = []
  · rw [hv, hnil]
  · have h := not_of_upTo p t u v huv hv
    cases hp : p v with
    | false => rfl
    | true => rw [hmono _ hp] at h; exact h

/-! ### Words in command position -/

/-- Is the text a word in command position? -/
def IsCommandWord : Text → Prop
  | [] => False
  | c :: r => isLetter c = true ∧ r.all (fun d => isWordChar d || d = '-') = true

/-! ### Words among the arguments -/

/-- Is the text a word or a number among the arguments? -/
def IsArgumentWord (x : Text) : Prop := x ≠ [] ∧ x.all isWordChar = true

theorem isWordChar_of_isDigit {c : Char} (h : isDigit c = true) : isWordChar c = true := by
  simp [isWordChar, h]

theorem isWordChar_of_isHexDigit {c : Char} (h : isHexDigit c = true) : isWordChar c = true := by
  simp only [isHexDigit, isWordChar, isLetter, Bool.or_eq_true, Bool.and_eq_true,
    decide_eq_true_eq] at h ⊢
  rcases h with (h | ⟨h1, h2⟩) | ⟨h1, h2⟩
  · exact .inl (.inr h)
  · exact .inl (.inl (.inl ⟨h1, Char.le_trans h2 (by decide)⟩))
  · exact .inl (.inl (.inr ⟨h1, Char.le_trans h2 (by decide)⟩))

theorem isArgumentWord_of_isDecimalWord {x : Text} (h : isDecimalWord x = true) :
    IsArgumentWord x := by
  simp only [isDecimalWord, Bool.and_eq_true, Bool.not_eq_true', List.isEmpty_eq_false_iff] at h
  refine ⟨h.1, List.all_eq_true.mpr fun c hc => ?_⟩
  exact isWordChar_of_isDigit (List.all_eq_true.mp h.2 c hc)

/-- A hexadecimal number is a word with an `x` in it. -/
theorem isArgumentWord_of_isHexWord {x : Text} (h : isHexWord x = true) :
    IsArgumentWord x ∧ isDecimalWord x = false := by
  unfold isHexWord at h
  split at h
  · rename_i c d r
    simp only [Bool.and_eq_true, Bool.or_eq_true, decide_eq_true_eq] at h
    obtain ⟨⟨hc, hd⟩, hr⟩ := h
    have hr : r.all isWordChar = true := by
      rw [List.all_eq_true] at hr ⊢
      exact fun c hc => isWordChar_of_isHexDigit (hr c hc)
    have hd := isWordChar_of_isHexDigit hd
    rcases hc with rfl | rfl
    · exact ⟨⟨by simp, by simp only [List.all_cons, hd, hr]; decide⟩, rfl⟩
    · exact ⟨⟨by simp, by simp only [List.all_cons, hd, hr]; decide⟩, rfl⟩
  · exact Bool.noConfusion h

theorem isPlainWord_iff {x : Text} : isPlainWord x = true ↔
    IsArgumentWord x ∧ isDecimalWord x = false ∧ isHexWord x = false := by
  simp [isPlainWord, IsArgumentWord, and_assoc]

theorem wordKind_eq_decimal {x : Text} : wordKind x = .decimal ↔ isDecimalWord x = true := by
  unfold wordKind
  split
  · simp [*]
  · split <;> simp [*]

theorem wordKind_eq_hex {x : Text} : wordKind x = .hex ↔ isHexWord x = true := by
  unfold wordKind
  split
  · rename_i h
    constructor
    · simp
    · intro hx
      rw [(isArgumentWord_of_isHexWord hx).2] at h
      exact Bool.noConfusion h
  · split <;> simp [*]

theorem wordKind_eq_word {x : Text} :
    wordKind x = .word ↔ isDecimalWord x = false ∧ isHexWord x = false := by
  unfold wordKind
  split
  · simp [*]
  · split <;> simp [*]

/-! ### Symbols -/

namespace Symbol

/-- Is there a longer lexeme that begins with the symbol and this character? -/
def grows : Symbol → Char → Bool
  | bang, c | assign, c | lt, c | gt, c => '=' = c
  | question, c => '>' = c
  | _, _ => false

theorem atStart?_text {s : Symbol} {r : Text} (h : r.Stops s.grows) :
    atStart? (s.text ++ r) = some s ∧ closesTag (s.text ++ r) = false := by
  cases r with
  | nil => cases s <;> decide
  | cons c r =>
    cases s <;>
      simp_all [atStart?, all, text, Text.startsWith, closesTag, Text.Stops, grows,
        List.isPrefixOf]

theorem stops_grows {s : Symbol} {r : Text} (h : atStart? (s.text ++ r) = some s)
    (hc : closesTag (s.text ++ r) = false) : r.Stops s.grows := by
  cases r with
  | nil => trivial
  | cons c r =>
    cases s <;>
      simp_all [atStart?, all, text, Text.startsWith, closesTag, Text.Stops, grows,
        List.isPrefixOf]

end Symbol

end ClearSilver
