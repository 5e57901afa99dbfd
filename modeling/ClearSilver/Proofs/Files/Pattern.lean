/-
# What a pattern for names matches

Which names the pieces of a pattern match is said by a relation
(`Piece.Matching`), and `Piece.matches` decides it (`Piece.matches_iff`). A
single component, not `.` or `..` and without `**`, is one part of a pattern for
paths: the names that it matches, or, when no character of it stands for others,
the one name that it is (`patternParts_of_isNamePattern`,
`Text.isNamedBy_of_plain`).

Key definitions: `Piece.Matching`, `Text.IsNamedBy`, `Text.isNamePattern`,
`namePart`.
Key theorems: `Piece.matches_iff`, `Text.isNamedBy_of_plain`,
`patternParts_of_isNamePattern`.
-/
import Mathlib.Data.List.Basic
import ClearSilver.Files.Pattern

namespace ClearSilver

/-! ### Matching a name -/

/-- The names that some pieces match: those put together from what each piece
stands for. -/
inductive Piece.Matching : List Piece → Text → Prop
  | nil : Matching [] []
  | star {ps : List Piece} {t : Text} (skipped : Text) (h : Matching ps t) :
    Matching (.star :: ps) (skipped ++ t)
  | one {s : CharSet} {c : Char} {ps : List Piece} {t : Text} (hc : s.mem c) (h : Matching ps t) :
    Matching (.one s :: ps) (c :: t)

theorem Text.mem_suffixes {u : Text} : ∀ {t : Text}, u ∈ t.suffixes ↔ ∃ skipped, t = skipped ++ u
  | [] => by simp [suffixes, eq_comm]
  | c :: r => by
    rw [suffixes, List.mem_cons, mem_suffixes]
    constructor
    · rintro (rfl | ⟨skipped, rfl⟩)
      · exact ⟨[], rfl⟩
      · exact ⟨c :: skipped, rfl⟩
    · rintro ⟨_ | ⟨d, skipped⟩, h⟩
      · exact .inl h.symm
      · exact .inr ⟨skipped, (List.cons.inj h).2⟩

theorem Piece.matches_iff : ∀ {ps : List Piece} {t : Text}, Piece.matches ps t ↔ Matching ps t
  | [], [] => by simp [Piece.matches, Matching.nil]
  | [], _ :: _ => iff_of_false nofun nofun
  | .star :: ps, t => by
    rw [Piece.matches, List.any_eq_true]
    constructor
    · rintro ⟨u, hu, hmatches⟩
      obtain ⟨skipped, rfl⟩ := Text.mem_suffixes.mp hu
      exact .star skipped (matches_iff.mp hmatches)
    · rintro (_ | ⟨skipped, h⟩)
      exact ⟨_, Text.mem_suffixes.mpr ⟨skipped, rfl⟩, matches_iff.mpr h⟩
  | .one _ :: _, [] => iff_of_false nofun nofun
  | .one s :: ps, c :: r => by
    rw [Piece.matches, Bool.and_eq_true]
    constructor
    · rintro ⟨hc, h⟩
      exact .one hc (matches_iff.mp h)
    · rintro (_ | _ | ⟨hc, h⟩)
      exact ⟨hc, matches_iff.mpr h⟩

/-- Is a name matched by a pattern for names? -/
def Text.IsNamedBy (name pattern : Text) : Prop := Piece.Matching (namePieces pattern) name

/-! ### Names as patterns -/

/-- Does a character of a pattern stand for others, or open a set? -/
def isWildcard (c : Char) : Bool := c = '*' || c = '?' || c = '['

theorem CharSet.mem_single {c d : Char} : (single c).mem d ↔ d = c := by
  have hrange : (single c).mem d ↔ c ≤ d ∧ d ≤ c := by simp [single, mem]
  rw [hrange]
  constructor
  · rintro ⟨hle, hge⟩
    exact Char.le_antisymm hge hle
  · rintro rfl
    exact ⟨Char.le_refl d, Char.le_refl d⟩

theorem matching_single {name : Text} : ∀ {t : Text},
    Piece.Matching (t.map fun c => .one (.single c)) name ↔ name = t
  | [] => by
    constructor
    · rintro ⟨⟩
      rfl
    · rintro rfl
      exact .nil
  | c :: r => by
    constructor
    · rintro (_ | _ | ⟨hc, h⟩)
      rw [CharSet.mem_single.mp hc, matching_single.mp h]
    · rintro rfl
      exact .one (CharSet.mem_single.mpr rfl) (matching_single.mpr rfl)

theorem namePieces_of_plain : ∀ {t : Text}, t.any isWildcard = false →
    namePieces t = t.map fun c => .one (.single c)
  | [], _ => rfl
  | c :: r, h => by
    rw [List.any_cons, Bool.or_eq_false_iff, isWildcard] at h
    obtain ⟨hc, hr⟩ := h
    simp only [Bool.or_eq_false_iff, decide_eq_false_iff_not] at hc
    have ih := namePieces_of_plain hr
    rw [namePieces] at ih ⊢
    rw [List.length_cons, piecesWithin, if_neg hc.1.1, if_neg hc.1.2, if_neg hc.2, ih, List.map_cons]

/-- A pattern whose characters stand for themselves matches the one name that it is. -/
theorem Text.isNamedBy_of_plain {name pattern : Text} (h : pattern.any isWildcard = false) :
    name.IsNamedBy pattern ↔ name = pattern := by
  rw [IsNamedBy, namePieces_of_plain h, matching_single]

/-! ### Patterns with one component -/

/-- Is a pattern for paths a single component, not `.` or `..` and without `**`? -/
def Text.isNamePattern (t : Text) : Bool :=
  !t.isEmpty && t ≠ (".".toList : Text) && t ≠ ("..".toList : Text) && !t.contains '/' &&
    !hasDoubleStar t

/-- The part that a pattern for names is. -/
def namePart (t : Text) : Part := if t.any isWildcard then .wild (namePieces t) else .exact t

theorem Text.splitAtAll_of_not_mem {separator : Char} : ∀ {t : Text}, separator ∉ t →
    t.splitAtAll separator = [t]
  | [], _ => rfl
  | c :: r, h => by
    obtain ⟨hc, hr⟩ := not_or.mp (mt List.mem_cons.mpr h)
    rw [splitAtAll, if_neg (Ne.symm hc), splitAtAll_of_not_mem hr]

theorem Path.rootOf_of_not_mem : ∀ {t : Text}, '/' ∉ t → rootOf t = []
  | [], _ => rfl
  | c :: r, h => by
    have hc : c ≠ '/' := fun hc => h (hc ▸ List.mem_cons_self)
    rw [rootOf, List.takeWhile_cons_of_neg (by simpa using hc)]
    rfl

theorem partOf_of_not_hasDoubleStar {t : Text} (h : hasDoubleStar t = false) :
    partOf t = .ok (namePart t) := by
  have hdeep : t ≠ ("**".toList : Text) := by
    rintro rfl
    cases h
  rw [partOf, if_neg hdeep, h, namePart]
  change (if t.any isWildcard then _ else _) = _
  split <;> rfl

/-- **A pattern with one component is one part: what it matches, or a name.** -/
theorem patternParts_of_isNamePattern {t : Text} (h : t.isNamePattern) :
    patternParts t = .ok [namePart t] := by
  simp only [Text.isNamePattern, Bool.and_eq_true, Bool.not_eq_true', decide_eq_true_eq,
    List.contains_eq_mem, decide_eq_false_iff_not] at h
  obtain ⟨⟨⟨⟨hempty, hhere⟩, habove⟩, hslash⟩, hstars⟩ := h
  have hparts : Path.ofText t = ⟨[], [t]⟩ := by
    rw [Path.ofText, Path.rootOf_of_not_mem hslash, Path.partsOf,
      Text.splitAtAll_of_not_mem hslash, List.filter_cons_of_pos (by simpa [hempty] using hhere)]
    rfl
  have hlast : t.getLast? ≠ some '/' := fun hlast => hslash (List.mem_of_getLast? hlast)
  rw [patternParts, hparts]
  simp [partOf_of_not_hasDoubleStar hstars, hlast, Bind.bind, Except.bind, pure, Except.pure]

end ClearSilver
