/-
# The lexemes of a written expression

A variable or an expression is written as a text whose first character is no
blank and makes no longer symbol of one before it (`startsArgument`), and that is
read as its lexemes wherever no word goes on behind it (`Spells.lexes`).

Key definitions: `Variable.lexemes`, `Expr.lexemes`, `Lexeme.listed`, `Spells`.
Key theorems: `Variable.spells`, `Expr.spells`, `SpellsAll.lexes`.
-/
import ClearSilver.Proofs.Scan.Stream
import ClearSilver.Proofs.Tree.Canonical
import ClearSilver.Tree.Written

namespace ClearSilver

/-! ### Lexemes -/

def Lexeme.symbol (s : Symbol) : Lexeme := (.symbol s, s.text)

/-- Lists of lexemes with a comma between each two. -/
def Lexeme.listed : List (List Lexeme) → List Lexeme
  | [] => []
  | [ls] => ls
  | ls :: ms :: r => ls ++ Lexeme.symbol .comma :: listed (ms :: r)

/-- The lexeme of a binary operator, if it has a symbol. -/
def BinaryOp.lexemes (op : BinaryOp) : List Lexeme := (op.symbol?.map Lexeme.symbol).toList

/-- The lexeme of a step after a dot. -/
def Variable.stepLexemes : Variable → List Lexeme
  | .name word => [(.word, word)]
  | .decNumber digits => [(.decimal, digits)]
  | .hexNumber digits => [(.hex, digits)]
  | .descend _ _ | .expand _ _ => []

mutual

/-- The lexemes that a variable is written as. -/
def Variable.lexemes : Variable → List Lexeme
  | .name word => [(.word, word)]
  | .decNumber digits => [Lexeme.symbol .dollar, (.decimal, digits)]
  | .hexNumber digits => [Lexeme.symbol .dollar, (.hex, digits)]
  | .descend parent child => parent.lexemes ++ Lexeme.symbol .dot :: child.stepLexemes
  | .expand parent index =>
    parent.lexemes ++ Lexeme.symbol .leftBracket :: (index.lexemes ++ [Lexeme.symbol .rightBracket])

/-- The lexemes that an expression is written as. -/
def Expr.lexemes : Expr → List Lexeme
  | .string value => [(.string, value.inQuotes)]
  | .decimal digits => [(.decimal, digits)]
  | .hex digits => [(.hex, digits)]
  | .lookup path => path.lexemes
  | .apply callee arguments =>
    callee.lexemes ++ Lexeme.symbol .leftParen ::
      (Lexeme.listed (Expr.lexemesAll arguments) ++ [Lexeme.symbol .rightParen])
  | .sequence items =>
    Lexeme.symbol .leftParen ::
      (Lexeme.listed (Expr.lexemesAll items) ++ [Lexeme.symbol .rightParen])
  | .unary op operand => Lexeme.symbol op.symbol :: operand.lexemes
  | .binary op left right =>
    Lexeme.symbol .leftParen ::
      (left.lexemes ++ (op.lexemes ++ (right.lexemes ++ [Lexeme.symbol .rightParen])))
  | .noop => []

def Expr.lexemesAll : List Expr → List (List Lexeme)
  | [] => []
  | e :: es => e.lexemes :: Expr.lexemesAll es

end

/-! ### How arguments begin -/

/-- Can a variable or an expression begin with this character? -/
def startsArgument (c : Char) : Bool :=
  isWordChar c || c = '"' || c = '\'' || c = '$' || c = '#' || c = '-' || c = '!' || c = '?' ||
    c = '('

/-- What begins an argument is no blank and makes no symbol longer. -/
theorem of_startsArgument {c : Char} (h : startsArgument c = true) :
    isBlank c = false ∧ ∀ s : Symbol, s.grows c = false := by
  have hne : ∀ d, startsArgument d = false → c ≠ d := by
    rintro d hd rfl
    rw [h] at hd
    cases hd
  constructor
  · simp only [isBlank, Bool.or_eq_false_iff, decide_eq_false_iff_not]
    exact ⟨⟨⟨hne _ rfl, hne _ rfl⟩, hne _ rfl⟩, hne _ rfl⟩
  · intro s
    have heq : decide ('=' = c) = false := decide_eq_false (hne '=' rfl).symm
    have hgt : decide ('>' = c) = false := decide_eq_false (hne '>' rfl).symm
    cases s <;> first | exact heq | exact hgt | rfl

/-- Is the text read as these lexemes among the arguments, behind a symbol or a
delimiter and wherever no word goes on? -/
structure Spells (t : Text) (ls : List Lexeme) : Prop where
  starts : ∃ c u, t = c :: u ∧ startsArgument c = true
  lexes : ∀ r : Text, r.Stops isWordChar → Lexes .arguments (t ++ r) ls .arguments r

theorem Spells.ne_nil {t : Text} {ls : List Lexeme} (h : Spells t ls) : ls ≠ [] := by
  obtain ⟨c, u, rfl, -⟩ := h.starts
  rintro rfl
  have hl := h.lexes [] trivial
  generalize ht : c :: u ++ [] = t at hl
  cases hl
  cases ht

theorem Spells.stops {t : Text} {ls : List Lexeme} (h : Spells t ls) {q : Char → Bool}
    (hq : ∀ c, startsArgument c = true → q c = false) (r : Text) : Text.Stops q (t ++ r) := by
  obtain ⟨c, u, rfl, hc⟩ := h.starts
  exact hq c hc

theorem Spells.stops_grows {t : Text} {ls : List Lexeme} (h : Spells t ls) (s : Symbol) (r : Text) :
    Text.Stops s.grows (t ++ r) := h.stops (fun _ hc => (of_startsArgument hc).2 s) r

theorem Spells.stops_isBlank {t : Text} {ls : List Lexeme} (h : Spells t ls) (r : Text) :
    Text.Stops isBlank (t ++ r) := h.stops (fun _ hc => (of_startsArgument hc).1) r

/-! ### Lexemes among the arguments -/

variable {s : Symbol} {x t t' : Text} {l : Lexeme} {ls : List Lexeme} {m m' : Mode}

theorem lexes_symbol (hg : t.Stops s.grows) (h : Lexes .arguments t ls m' t') :
    Lexes .arguments (s.text ++ t) (Lexeme.symbol s :: ls) m' t' :=
  Lexes.more (Mode.skips_nil _) (x := s.text) rfl hg h

theorem lexes_blank (hne : ls ≠ []) (h : Lexes .arguments t ls m' t') :
    Lexes .arguments (' ' :: t) ls m' t' :=
  h.skip (b := [' ']) ⟨rfl, fun h => absurd rfl h⟩ fun h => absurd h hne

theorem lexes_word {k : Token.Kind} (hk : k = .decimal ∨ k = .hex ∨ k = .word)
    (hx : Mode.arguments.IsLexeme k x) (t : Text) (ht : t.Stops isWordChar) :
    Lexes .arguments (x ++ t) [(k, x)] .arguments t := by
  refine Lexes.more (Mode.skips_nil _) (x := x) hx ?_ ?_
  · rcases hk with rfl | rfl | rfl <;> exact ht
  · rcases hk with rfl | rfl | rfl <;> exact .none _ t

/-- What follows a symbol that never grows. -/
theorem stops_of_not_grows (hs : ∀ c, s.grows c = false) (t : Text) : t.Stops s.grows := by
  cases t with
  | nil => trivial
  | cons c t => exact hs c

/-! ### Texts behind each other -/

theorem Spells.append {u : Text} {ms : List Lexeme} (h : Spells t ls)
    (hstop : ∀ r : Text, (u ++ r).Stops isWordChar)
    (hu : ∀ r : Text, r.Stops isWordChar → Lexes .arguments (u ++ r) ms .arguments r) :
    Spells (t ++ u) (ls ++ ms) where
  starts := by
    obtain ⟨c, v, rfl, hc⟩ := h.starts
    exact ⟨c, v ++ u, rfl, hc⟩
  lexes r hr := by
    rw [List.append_assoc]
    exact (h.lexes _ (hstop r)).append (hu r hr)

theorem spells_word {k : Token.Kind} (hk : k = .decimal ∨ k = .hex ∨ k = .word)
    (hx : Mode.arguments.IsLexeme k x) : Spells x [(k, x)] where
  starts := by
    have hword : IsArgumentWord x := by
      rcases hk with rfl | rfl | rfl
      · exact isArgumentWord_of_isDecimalWord hx
      · exact (isArgumentWord_of_isHexWord hx).1
      · exact (isPlainWord_iff.mp hx).1
    cases x with
    | nil => exact absurd rfl hword.1
    | cons c x =>
      have hc : isWordChar c = true := (Bool.and_eq_true _ _ ▸ List.all_cons ▸ hword.2).1
      exact ⟨c, x, rfl, by simp [startsArgument, hc]⟩
  lexes r hr := lexes_word hk hx r hr

/-- A symbol before a text. -/
theorem spells_symbol {c : Char} (hc : startsArgument c = true) (hs : s.text = [c])
    (hg : ∀ r : Text, (t ++ r).Stops s.grows)
    (h : ∀ r : Text, r.Stops isWordChar → Lexes .arguments (t ++ r) ls .arguments r) :
    Spells (c :: t) (Lexeme.symbol s :: ls) where
  starts := ⟨c, t, rfl, hc⟩
  lexes r hr := by
    have := lexes_symbol (hg r) (h r hr)
    rwa [hs] at this

theorem spells_string {value : Text} (h : isQuotable value = true) :
    Spells value.inQuotes [(.string, value.inQuotes)] := by
  have hx : Mode.arguments.IsLexeme .string value.inQuotes := by
    unfold Text.inQuotes
    split
    · refine ⟨'\'', value, .inr rfl, fun hq => ?_, rfl⟩
      simp_all [isQuotable]
    · exact ⟨'"', value, .inl rfl, by simp_all, rfl⟩
  refine ⟨?_, fun r _ => Lexes.more (Mode.skips_nil _) (x := value.inQuotes) hx trivial (.none _ r)⟩
  unfold Text.inQuotes
  split
  · exact ⟨'\'', _, rfl, rfl⟩
  · exact ⟨'"', _, rfl, rfl⟩

/-! ### Lists -/

/-- Texts that are read as these lists of lexemes, one each. -/
inductive SpellsAll : List Text → List (List Lexeme) → Prop
  | nil : SpellsAll [] []
  | cons {ts : List Text} {lss : List (List Lexeme)} {t : Text} {ls : List Lexeme}
      (h : Spells t ls) (hs : SpellsAll ts lss) : SpellsAll (t :: ts) (ls :: lss)

theorem Lexeme.listed_ne_nil {ls : List Lexeme} (h : ls ≠ []) (lss : List (List Lexeme)) :
    Lexeme.listed (ls :: lss) ≠ [] := by
  cases lss with
  | nil => exact h
  | cons ms lss => simp [listed]

/-- A list is read as its items, with a comma and a blank between each two. -/
theorem SpellsAll.lexes : ∀ {ts : List Text} {lss : List (List Lexeme)}, SpellsAll ts lss →
    ∀ r : Text, r.Stops isWordChar →
      Lexes .arguments (Text.joined ", " ts ++ r) (Lexeme.listed lss) .arguments r
  | _, _, .nil, r, _ => .none _ r
  | _, _, .cons h .nil, r, hr => h.lexes r hr
  | t :: u :: ts, _, .cons h (.cons h' hs), r, hr => by
    have hrest := SpellsAll.lexes (.cons h' hs) r hr
    have hcomma := lexes_symbol (s := .comma) (stops_of_not_grows (fun _ => rfl) _)
      (lexes_blank (Lexeme.listed_ne_nil h'.ne_nil _) hrest)
    have htext : Text.joined ", " (t :: u :: ts) ++ r =
        t ++ (Symbol.comma.text ++ ' ' :: (Text.joined ", " (u :: ts) ++ r)) := by
      simp [Text.joined, Symbol.text]
    rw [htext]
    refine (h.lexes _ ?_).append hcomma
    rfl

/-- Two texts with a comma and a blank between them. -/
theorem Spells.comma {u : Text} {ms : List Lexeme} (h : Spells t ls) (hu : Spells u ms) :
    Spells (t ++ ", " ++ u) (ls ++ Lexeme.symbol .comma :: ms) := by
  rw [List.append_assoc]
  refine h.append (fun r => rfl) fun r hr => ?_
  exact lexes_symbol (s := .comma) (stops_of_not_grows (fun _ => rfl) _)
    (lexes_blank hu.ne_nil (hu.lexes r hr))

/-! ### Variables and expressions -/

theorem Variable.spells_step {v : Variable} (h : v.Canonical) (hv : v.isStep = true) :
    Spells v.writtenStep v.stepLexemes := by
  cases v with
  | name word => exact spells_word (.inr (.inr rfl)) h
  | decNumber digits => exact spells_word (.inl rfl) h
  | hexNumber digits => exact spells_word (.inr (.inl rfl)) h
  | descend _ _ | expand _ _ => cases hv

/-- A list in parentheses. -/
theorem SpellsAll.lexes_parenthesized {ts : List Text} {lss : List (List Lexeme)}
    (h : SpellsAll ts lss) (r : Text) :
    Lexes .arguments ('(' :: (Text.joined ", " ts ++ ')' :: r))
      (Lexeme.symbol .leftParen :: (Lexeme.listed lss ++ [Lexeme.symbol .rightParen])) .arguments
      r :=
  lexes_symbol (s := .leftParen) (stops_of_not_grows (fun _ => rfl) _)
    ((h.lexes (')' :: r) rfl).append
      (lexes_symbol (s := .rightParen) (stops_of_not_grows (fun _ => rfl) _) (.none _ r)))

/-- A name with a list in parentheses. -/
theorem Spells.parenthesized {ts : List Text} {lss : List (List Lexeme)} (h : Spells t ls)
    (hs : SpellsAll ts lss) : Spells (t ++ '(' :: Text.joined ", " ts ++ [')'])
      (ls ++ Lexeme.symbol .leftParen :: (Lexeme.listed lss ++ [Lexeme.symbol .rightParen])) := by
  rw [List.append_assoc]
  refine h.append (fun r => rfl) fun r _ => ?_
  simp only [List.cons_append, List.append_assoc, List.nil_append]
  exact hs.lexes_parenthesized r

mutual

/-- **A variable is read as its lexemes.** -/
theorem Variable.spells : ∀ v : Variable, v.Canonical → Spells v.written v.lexemes
  | .name word, h => spells_word (.inr (.inr rfl)) h
  | .decNumber digits, h => by
    rw [Variable.written, Variable.lexemes]
    exact spells_symbol rfl rfl (fun _ => stops_of_not_grows (fun _ => rfl) _)
      (lexes_word (.inl rfl) h)
  | .hexNumber digits, h => by
    rw [Variable.written, Variable.lexemes]
    exact spells_symbol rfl rfl (fun _ => stops_of_not_grows (fun _ => rfl) _)
      (lexes_word (.inr (.inl rfl)) h)
  | .descend parent child, ⟨hp, hs, hc⟩ => by
    rw [Variable.written, Variable.lexemes]
    refine (parent.spells hp).append (fun r => rfl) fun r hr => ?_
    exact lexes_symbol (s := .dot) (stops_of_not_grows (fun _ => rfl) _)
      ((child.spells_step hc hs).lexes r hr)
  | .expand parent index, ⟨hp, hi⟩ => by
    rw [Variable.written, Variable.lexemes, List.append_assoc]
    refine (parent.spells hp).append (fun r => rfl) fun r _ => ?_
    simp only [List.cons_append, List.append_assoc, List.nil_append]
    refine lexes_symbol (s := .leftBracket) (stops_of_not_grows (fun _ => rfl) _)
      (((index.spells hi).lexes (']' :: r) rfl).append ?_)
    exact lexes_symbol (s := .rightBracket) (stops_of_not_grows (fun _ => rfl) _) (.none _ r)

/-- **An expression is read as its lexemes.** -/
theorem Expr.spells : ∀ e : Expr, e.Canonical → Spells e.written e.lexemes
  | .string value, h => spells_string h
  | .decimal digits, h => spells_word (.inl rfl) h
  | .hex digits, h => spells_word (.inr (.inl rfl)) h
  | .lookup path, h => path.spells h
  | .apply callee arguments, ⟨hc, ha⟩ =>
    (callee.spells hc).parenthesized (Expr.spellsAll arguments ha)
  | .sequence items, ⟨_, hi⟩ => by
    rw [Expr.written, Expr.lexemes]
    refine ⟨⟨'(', _, rfl, rfl⟩, fun r _ => ?_⟩
    simp only [List.cons_append, List.append_assoc, List.nil_append]
    exact (Expr.spellsAll items hi).lexes_parenthesized r
  | .unary op operand, ⟨_, ho⟩ => by
    have h := operand.spells ho
    cases op <;> exact spells_symbol rfl rfl (fun r => h.stops_grows _ r) h.lexes
  | .binary op left right, ⟨hop, hl, hr⟩ => by
    obtain ⟨s, hs⟩ := Option.isSome_iff_exists.mp hop
    have hright := (right.spells hr).lexes
    rw [Expr.written, Expr.lexemes, BinaryOp.sign, BinaryOp.lexemes, hs]
    refine ⟨⟨'(', _, rfl, rfl⟩, fun r _ => ?_⟩
    simp only [Option.map_some, Option.getD_some, Option.toList_some, List.append_assoc,
      List.cons_append, List.nil_append]
    -- each blank stands before a lexeme
    have hclose := (hright (')' :: r) rfl).append
      (lexes_symbol (s := .rightParen) (stops_of_not_grows (fun _ => rfl) _) (.none _ r))
    have hsign := lexes_symbol (s := s) (t := ' ' :: (right.written ++ ')' :: r))
      (by cases s <;> rfl) (lexes_blank (by simp [(right.spells hr).ne_nil]) hclose)
    have hleft := (left.spells hl).lexes (' ' :: (s.text ++ ' ' :: (right.written ++ ')' :: r))) rfl
    exact lexes_symbol (s := .leftParen) (stops_of_not_grows (fun _ => rfl) _)
      (hleft.append (lexes_blank (by simp) hsign))

theorem Expr.spellsAll : ∀ es : List Expr, Expr.CanonicalAll es →
    SpellsAll (Expr.writtenAll es) (Expr.lexemesAll es)
  | [], _ => .nil
  | e :: es, ⟨he, hes⟩ => .cons (e.spells he) (Expr.spellsAll es hes)

end

end ClearSilver
