/-
# A text that goes on otherwise

Where a lexeme ends depends on the first characters behind it, and of those on
no more than belongs to the next lexeme. So a text that is cut behind some
lexemes can go on with any other text at which the last of them ends, and is
read as the same lexemes up to there (`Lexes.splice`). A source that goes on has
the same tokens at the same places (`Pulls.extend`), and so has one that is cut
behind them (`Pulls.cut`).

Key definitions: `Mode.LastEnds`, `Scanner.extend`.
Key theorems: `Mode.Ends.splice`, `Lexes.splice`, `Pulls.extend`, `Pulls.cut`.
-/
import ClearSilver.Proofs.Scan.Stream

namespace ClearSilver

variable {m m' : Mode} {k : Token.Kind} {l : Lexeme} {ls : List Lexeme} {x r p t t' t'' : Text}

/-! ### What the marks of a tag say of the next lexeme -/

namespace Mode

theorem opensTag_iff (hx : content.IsLexeme k x) (hr : content.Ends k x r) :
    opensTag (x ++ r) = true ↔ k = .tagOpen := by
  have h := scanContent_of_stands hx hr
  unfold scanContent at h
  split at h
  · cases h
  · rename_i ht
    rw [ht]
    split at h
    · cases h
      exact iff_of_true ‹_› rfl
    · cases h
      exact iff_of_false ‹_› (by simp)

theorem closesTag_iff_of_comment (hx : comment.IsLexeme k x) (hr : comment.Ends k x r) :
    closesTag (x ++ r) = true ↔ k = .tagClose := by
  have h := scanComment_of_stands hx hr
  unfold scanComment at h
  split at h
  · cases h
  · rename_i ht
    rw [ht]
    split at h
    · cases h
      exact iff_of_true ‹_› rfl
    · cases h
      exact iff_of_false ‹_› (by simp)

theorem closesTag_iff_of_arguments (hx : arguments.IsLexeme k x) (hr : arguments.Ends k x r) :
    closesTag (x ++ r) = true ↔ k = .tagClose := by
  have h := scanArgument_of_stands (n := 0) hx hr
  constructor
  · intro hc
    obtain ⟨s, hs⟩ := closesTag_eq_true.mp hc
    rw [hs] at h
    cases h
    rfl
  · rintro rfl
    obtain rfl : x = "?>" := hx
    rfl

end Mode

theorem Lexes.opensTag_iff (h : Lexes .content t (l :: ls) m' t') :
    opensTag t = true ↔ l.1 = .tagOpen := by
  cases h with
  | more hb hx hr _ =>
    rw [hb.2 (by simp), List.nil_append]
    exact Mode.opensTag_iff hx hr

theorem Lexes.closesTag_iff_of_comment (h : Lexes .comment t (l :: ls) m' t') :
    closesTag t = true ↔ l.1 = .tagClose := by
  cases h with
  | more hb hx hr _ =>
    rw [hb.2 (by simp), List.nil_append]
    exact Mode.closesTag_iff_of_comment hx hr

/-- Among the arguments a tag closes where its end is the next lexeme, with no
blank before it. -/
theorem Lexes.closesTag_iff_of_arguments (h : Lexes .arguments t (l :: ls) m' t') :
    closesTag t = true ↔ t.Stops isBlank ∧ l.1 = .tagClose := by
  cases h with
  | @more _ _ _ b x r _ _ hb hx hr _ =>
    constructor
    · intro hclose
      obtain ⟨s, hs⟩ := closesTag_eq_true.mp hclose
      have hstop : Text.Stops isBlank (b ++ (x ++ r)) := by rw [hs]; rfl
      obtain rfl := Text.eq_nil_of_stops hb.1 hstop
      exact ⟨hstop, (Mode.closesTag_iff_of_arguments hx hr).mp hclose⟩
    · rintro ⟨hstop, hk⟩
      obtain rfl := Text.eq_nil_of_stops hb.1 hstop
      exact (Mode.closesTag_iff_of_arguments hx hr).mpr hk

/-! ### Going on otherwise -/

theorem Text.Stops.splice {q : Char → Bool} (h : Text.Stops q (p ++ t')) (hp : p ≠ []) :
    Text.Stops q (p ++ t'') := by
  cases p with
  | nil => exact absurd rfl hp
  | cons c p => exact h

/-- A lexeme with others behind it ends there whatever follows the others. -/
theorem Mode.Ends.splice (h : m.Ends k x (p ++ t')) (hp : p ≠ [])
    (h₁ : Lexes (m.step k) (p ++ t') (l :: ls) m' t')
    (h₂ : Lexes (m.step k) (p ++ t'') (l :: ls) m' t'') : m.Ends k x (p ++ t'') := by
  have hs : ∀ {q : Char → Bool}, Text.Stops q (p ++ t') → Text.Stops q (p ++ t'') :=
    fun h => h.splice hp
  have hne : p ++ t' ≠ [] := by simp [hp]
  cases m with
  | content =>
    cases k with
    | data => exact .inr (h₂.opensTag_iff.mpr (h₁.opensTag_iff.mp (h.resolve_left hne)))
    | tagOpen => exact hs h
    | _ => trivial
  | command =>
    cases k with
    | softDelimiter =>
      refine ⟨hs h.1, fun hx => ?_⟩
      obtain ⟨hmark, hclose⟩ := h.2 hx
      refine ⟨hs hmark, Bool.eq_false_iff.mpr fun hc => ?_⟩
      have hl := (h₂.closesTag_iff_of_arguments.mp hc).2
      rw [h₁.closesTag_iff_of_arguments.mpr ⟨h.1, hl⟩] at hclose
      cases hclose
    | hardDelimiter | keyword _ | word => exact hs h
    | _ => trivial
  | arguments =>
    cases k with
    | decimal | hex | word | symbol _ => exact hs h
    | _ => trivial
  | comment =>
    cases k with
    | comment =>
      exact .inr (h₂.closesTag_iff_of_comment.mpr
        (h₁.closesTag_iff_of_comment.mp (h.resolve_left hne)))
    | _ => trivial

/-- Does the last of these lexemes, read from the mode on, end where the text
goes on with `r`? -/
def Mode.LastEnds : Mode → List Lexeme → Text → Prop
  | _, [], _ => True
  | m, [(k, x)], r => m.Ends k x r
  | m, (k, _) :: l :: ls, r => (m.step k).LastEnds (l :: ls) r

/-- The last lexeme ends where the text goes on. -/
theorem Lexes.lastEnds (h : Lexes m t ls m' t') : m.LastEnds ls t' := by
  induction h with
  | none => trivial
  | @more m _ k _ x r t' ls _ _ hr h ih =>
    cases ls with
    | nil =>
      cases h
      exact hr
    | cons l ls => exact ih

/-- At the end of a text every lexeme ends. -/
theorem Mode.ends_nil (m : Mode) (k : Token.Kind) (x : Text) : m.Ends k x [] := by
  cases m <;> cases k <;> simp [Ends, Text.Stops, closesTag, Text.startsWith]

theorem Mode.lastEnds_nil : ∀ (ls : List Lexeme) (m : Mode), m.LastEnds ls []
  | [], _ => trivial
  | [(k, x)], m => m.ends_nil k x
  | (k, _) :: l :: ls, m => lastEnds_nil (l :: ls) (m.step k)

/-- A lexeme ends where the text goes on otherwise behind those that follow it. -/
theorem Mode.Ends.go_on (hr : m.Ends k x r) (h : Lexes (m.step k) r ls m' t')
    (hl : m.LastEnds ((k, x) :: ls) t'') (ih : (m.step k).LastEnds ls t'' →
      ∃ p, r = p ++ t' ∧ Lexes (m.step k) (p ++ t'') ls m' t'') :
    ∃ p, r = p ++ t' ∧ m.Ends k x (p ++ t'') ∧ Lexes (m.step k) (p ++ t'') ls m' t'' := by
  cases ls with
  | nil =>
    cases h
    exact ⟨[], rfl, hl, .none _ t''⟩
  | cons l ls =>
    obtain ⟨p, rfl, hp⟩ := ih hl
    have hne : p ≠ [] := by
      have hle := h.length_le
      rintro rfl
      simp only [List.length_cons, List.nil_append] at hle
      omega
    exact ⟨p, rfl, hr.splice hne h hp, hp⟩

/-- **A text goes on otherwise** behind its lexemes, where the last one ends. -/
theorem Lexes.splice (h : Lexes m t ls m' t') (hl : m.LastEnds ls t'') :
    ∃ p, t = p ++ t' ∧ Lexes m (p ++ t'') ls m' t'' := by
  induction h with
  | none m t => exact ⟨[], rfl, .none m t''⟩
  | @more m _ k b x r t' ls hb hx hr h ih =>
    obtain ⟨p, rfl, hr', hp⟩ := hr.go_on h hl ih
    refine ⟨b ++ (x ++ p), by simp, ?_⟩
    rw [List.append_assoc, List.append_assoc]
    exact .more hb hx hr' hp

/-- A text goes on behind its rest, where the last of its lexemes ends. -/
theorem Lexes.extend {more : Text} (h : Lexes m t ls m' r) (hl : m.LastEnds ls (r ++ more)) :
    Lexes m (t ++ more) ls m' (r ++ more) := by
  obtain ⟨p, rfl, hp⟩ := h.splice hl
  rwa [List.append_assoc]

/-! ### Sources that go on -/

/-- The scanner of a source that goes on. -/
def Scanner.extend (s : Scanner) (more : Text) : Scanner := ⟨s.source ++ more, s.pos, s.mode⟩

theorem Scanner.rest_extend {s : Scanner} (hs : s.pos ≤ s.source.length) (more : Text) :
    (s.extend more).rest = s.rest ++ more :=
  List.drop_append_of_le_length hs

/-- **The same tokens stand in a source that goes on**, where the last one ends. -/
theorem Pulls.extend {s s' : Scanner} {toks : List Token} {more : Text} (h : Pulls s toks s')
    (hs : s.pos ≤ s.source.length) (hne : ∀ tok ∈ toks, tok.kind ≠ .eof)
    (hl : s.mode.LastEnds (toks.map Token.lexeme) (s'.rest ++ more)) :
    Pulls (s.extend more) toks (s'.extend more) ∧ s'.pos ≤ s'.source.length := by
  induction h with
  | none s => exact ⟨.none _, hs⟩
  | @more s s₁ s₂ tok toks hp hrest ih =>
    obtain ⟨htok, htoks⟩ := List.forall_mem_cons.mp hne
    cases Scanner.gives_of_next hp with
    | @lexeme b x r k ht hb hx hr =>
      have hlexes := (hrest.lexes htoks).2
      rw [Scanner.rest_mk ht] at hlexes
      obtain ⟨p, rfl, hr', -⟩ := hr.go_on hlexes hl fun hl => hlexes.splice hl
      have hpos : s.pos + b.length + x.length ≤ s.source.length := by
        have hlen := congrArg List.length ht
        have hx := List.length_pos_iff.mpr (hx.ne_nil hr).1
        rw [s.length_rest] at hlen
        simp only [List.length_append] at hlen
        omega
      have htext : (s.extend more).rest = b ++ (x ++ (p ++ (s₂.rest ++ more))) := by
        rw [Scanner.rest_extend hs, ht]
        simp
      have hlast : (s.mode.step k).LastEnds (toks.map Token.lexeme) (s₂.rest ++ more) := by
        cases toks with
        | nil => trivial
        | cons t toks => exact hl
      obtain ⟨hpulls, hle⟩ := ih hpos htoks hlast
      exact ⟨.more (Scanner.next_of_stands htext hb hx hr') hpulls, hle⟩
    | atEnd _ => exact absurd rfl htok

/-- **The tokens of a text stand in it alone**, without what follows them. -/
theorem Pulls.cut {u r : Text} {mode : Mode} {toks : List Token} {s : Scanner}
    (h : Pulls (Scanner.start (u ++ r) mode) toks s) (hne : ∀ tok ∈ toks, tok.kind ≠ .eof)
    (hrest : s.rest = r) : Pulls (Scanner.start u mode) toks ⟨u, u.length, s.mode⟩ := by
  have hlexes := (h.lexes hne).2
  rw [hrest] at hlexes
  change Lexes mode (u ++ r) _ _ _ at hlexes
  obtain ⟨p, hp, hcut⟩ := hlexes.splice (Mode.lastEnds_nil _ mode)
  obtain rfl := List.append_cancel_right hp
  rw [List.append_nil] at hcut
  -- the lexemes are read again from the text alone, and are those of the longer one
  obtain ⟨toks', pos, hpulls, hsame, hnil⟩ := hcut.pulls u 0 rfl
  have hne' : ∀ tok ∈ toks', tok.kind ≠ .eof := by
    intro tok htok hk
    have hmem : tok.lexeme ∈ toks.map Token.lexeme := hsame ▸ List.mem_map_of_mem htok
    obtain ⟨other, hother, heq⟩ := List.mem_map.mp hmem
    exact hne other hother ((congrArg Prod.fst heq).trans hk)
  have hlast : mode.LastEnds (toks'.map Token.lexeme)
      ((⟨u, pos, s.mode⟩ : Scanner).rest ++ r) := by
    rw [hnil, hsame]
    exact hlexes.lastEnds
  obtain ⟨hextended, hle⟩ := hpulls.extend (Nat.zero_le _) hne' hlast
  obtain rfl : toks' = toks :=
    hextended.eq_of_length h (by simpa using congrArg List.length hsame)
  have hpos : pos = u.length := Nat.le_antisymm hle (List.drop_eq_nil_iff.mp hnil)
  rwa [hpos] at hpulls

end ClearSilver
