/-
# A blank for the colon

After a command keyword a run of blanks delimits as a colon does, unless a mark
stands behind it that takes the blanks for its own. So where a colon is a
delimiter, a blank in its place is one, at the same place and as long
(`Pulls.blank_for_colon`). The tokens before it are the same, as the last of
them ends at a blank too (`Lexes.lastEnds_blank`), and those behind it, as two
scanners with the same ahead of them give the same (`Scanner.SameAhead`).

Key definitions: `Scanner.SameAhead`, `DelimitsAsBlank`.
Key theorems: `Scanner.SameAhead.next`, `Pulls.sameAhead`, `Lexes.lastEnds_blank`,
`Pulls.before_blank`, `Pulls.blank_for_colon`.
-/
import ClearSilver.Proofs.Scan.Splice

namespace ClearSilver

/-! ### Scanners with the same ahead of them -/

/-- Do the scanners stand at the same place of sources as long as each other,
in one mode and before the same text? -/
structure Scanner.SameAhead (s s' : Scanner) : Prop where
  length : s.source.length = s'.source.length
  pos : s.pos = s'.pos
  mode : s.mode = s'.mode
  rest : s.rest = s'.rest

/-- **The next step is the same**, and the same is ahead after it. -/
theorem Scanner.SameAhead.next {s s' t : Scanner} {given : Except LexicalFault Token}
    (h : s.SameAhead s') (hn : s.next = (given, t)) :
    ∃ t', s'.next = (given, t') ∧ t.SameAhead t' := by
  obtain ⟨source, pos, mode⟩ := s
  obtain ⟨source', pos', mode'⟩ := s'
  obtain ⟨hlength, hpos, hmode, hrest⟩ := h
  obtain rfl : pos = pos' := hpos
  obtain rfl : mode = mode' := hmode
  simp only [Scanner.next, Scanner.rest] at hlength hrest hn ⊢
  rw [← hrest]
  cases hscan : mode.scan (source.drop pos) with
  | lexeme skipped kind text =>
    rw [hscan] at hn
    cases hn
    refine ⟨_, rfl, hlength, rfl, rfl, ?_⟩
    simp only [Scanner.rest, Nat.add_assoc, ← List.drop_drop, hrest]
  | stuck skipped char =>
    rw [hscan] at hn
    cases hn
    exact ⟨_, rfl, hlength, rfl, rfl, hrest⟩
  | ended =>
    rw [hscan] at hn
    cases hn
    rw [hlength]
    refine ⟨_, rfl, hlength, rfl, rfl, ?_⟩
    rw [Scanner.rest, ← hlength, List.drop_length, Scanner.rest, hlength, List.drop_length]

/-- **The same tokens are given** by scanners with the same ahead of them. -/
theorem Pulls.sameAhead {s s' last : Scanner} {toks : List Token} (hp : Pulls s toks last)
    (h : s.SameAhead s') : ∃ last', Pulls s' toks last' ∧ last.SameAhead last' := by
  induction hp generalizing s' with
  | none s => exact ⟨s', .none s', h⟩
  | more hn _ ih =>
    obtain ⟨t', hn', hahead⟩ := h.next hn
    obtain ⟨last', hp', hlast⟩ := ih hahead
    exact ⟨last', .more hn' hp', hlast⟩

/-- Behind a character the same is ahead whatever that character is. -/
theorem Scanner.sameAhead_behind (u r : Text) (c c' : Char) (n : Nat) (mode : Mode) :
    SameAhead ⟨u ++ c :: r, u.length + n.succ, mode⟩ ⟨u ++ c' :: r, u.length + n.succ, mode⟩ where
  length := by simp
  pos := rfl
  mode := rfl
  rest := by
    rw [Scanner.rest, Scanner.rest, List.drop_length_add_append, List.drop_length_add_append]
    rfl

/-! ### What ends at a blank -/

/-- The mark of a tag ends with a blank. -/
theorem Mode.IsLexeme.getLast?_tagOpen {m : Mode} {x : Text} (hx : m.IsLexeme .tagOpen x) :
    ∃ c, x.getLast? = some c ∧ isBlank c = true := by
  obtain rfl := hx.mode_eq_content (.inr rfl)
  obtain ⟨b, hne, hall, rfl⟩ := hx
  refine ⟨b.getLast hne, ?_, List.all_eq_true.mp hall _ (List.getLast_mem hne)⟩
  rw [List.getLast?_append, List.getLast?_eq_some_getLast hne]
  rfl

/-- Every other lexeme behind which a command goes on ends at a blank. -/
theorem Mode.ends_blank {m : Mode} {k : Token.Kind} (x r : Text) (hstep : m.step k = .command)
    (hk : k ≠ .tagOpen) : m.Ends k x (' ' :: r) := by
  cases m with
  | content | arguments | comment => cases k <;> simp_all [Mode.step]
  | command =>
    cases k with
    | keyword _ | word => rfl
    | softDelimiter | hardDelimiter => simp [Mode.step] at hstep
    | _ => trivial

/-- **The last lexeme before a delimiter ends at a blank**, where the text up to
there does not end with one. -/
theorem Lexes.lastEnds_blank {m m' : Mode} {t t' : Text} {ls : List Lexeme} (r : Text)
    (h : Lexes m t ls m' t') (hm : m' = .command) (hend : t' = [])
    (ht : t.getLast?.any isBlank = false) : m.LastEnds ls (' ' :: r) := by
  induction h with
  | none => trivial
  | @more m m' k b x r₁ t' ls hb hx hr h ih =>
    cases ls with
    | nil =>
      cases h
      refine Mode.ends_blank x r hm fun hk => ?_
      obtain ⟨c, hc, hblank⟩ := Mode.IsLexeme.getLast?_tagOpen (hk ▸ hx)
      rw [hend, List.append_nil, List.getLast?_append, hc] at ht
      cases hblank.symm.trans ht
    | cons l ls =>
      refine ih hm hend ?_
      cases hlast : r₁.getLast? with
      | none => rfl
      | some c =>
        rw [List.getLast?_append, List.getLast?_append, hlast] at ht
        exact ht

/-! ### The delimiter -/

/-- Does a text not go on, behind its blanks, with a mark that takes them for its
own? -/
def DelimitsAsBlank (r : Text) : Prop :=
  ∀ mark ∈ (["!", ":", "?>"] : List Text), Text.startsWith (r.dropWhile isBlank) mark = false

instance (r : Text) : Decidable (DelimitsAsBlank r) :=
  inferInstanceAs (Decidable (∀ mark ∈ ([_, _, _] : List Text), _))

theorem DelimitsAsBlank.ends {r : Text} (hr : DelimitsAsBlank r) :
    Text.Stops (fun c => c = ':' || c = '!') (r.dropWhile isBlank) ∧
      closesTag (r.dropWhile isBlank) = false := by
  have hbang := hr "!" (by simp)
  have hcolon := hr ":" (by simp)
  refine ⟨?_, hr "?>" (by simp)⟩
  generalize r.dropWhile isBlank = t at hbang hcolon
  cases t with
  | nil => trivial
  | cons c t =>
    have hc : c ≠ ':' := by
      rintro rfl
      cases hcolon
    have hc' : c ≠ '!' := by
      rintro rfl
      cases hbang
    simp [Text.Stops, hc, hc']

namespace Scanner

variable {s s' : Scanner} {r : Text}

/-- A soft delimiter is given in command position, with nothing before it. -/
theorem of_next_softDelimiter {tok : Token} (hn : s.next = (.ok tok, s'))
    (hk : tok.kind = .softDelimiter) : s.mode = .command ∧ tok.offset = s.pos := by
  cases gives_of_next hn with
  | @lexeme b x r k _ hb hx _ =>
    obtain rfl : k = .softDelimiter := hk
    have hm : s.mode = .command := by
      cases hm : s.mode <;> rw [hm] at hx <;> first | rfl | exact hx.elim
    obtain rfl : b = [] := hb.2 (by simp [hm])
    exact ⟨hm, rfl⟩
  | atEnd _ => cases hk

/-- A character with the blanks behind it is one delimiter if it may be. -/
theorem next_delimiter {c : Char} (hm : s.mode = .command) (hrest : s.rest = c :: r)
    (hx : Mode.command.IsLexeme .softDelimiter (c :: r.takeWhile isBlank))
    (hends : Mode.command.Ends .softDelimiter (c :: r.takeWhile isBlank) (r.dropWhile isBlank)) :
    s.next = (.ok ⟨.softDelimiter, c :: r.takeWhile isBlank, s.pos⟩,
      ⟨s.source, s.pos + (r.takeWhile isBlank).length.succ, .arguments⟩) := by
  have htext : s.rest = [] ++ (c :: r.takeWhile isBlank ++ r.dropWhile isBlank) := by
    rw [hrest, List.nil_append, List.cons_append, List.takeWhile_append_dropWhile]
  rw [next_of_stands htext (Mode.skips_nil _) (hm ▸ hx) (hm ▸ hends), hm]
  rfl

theorem next_colon (hm : s.mode = .command) (hrest : s.rest = ':' :: r) :
    s.next = (.ok ⟨.softDelimiter, ':' :: r.takeWhile isBlank, s.pos⟩,
      ⟨s.source, s.pos + (r.takeWhile isBlank).length.succ, .arguments⟩) :=
  next_delimiter hm hrest (.inl ⟨[], _, rfl, List.all_takeWhile, rfl⟩)
    ⟨Text.stops_dropWhile _ _, nofun⟩

theorem next_blank (hm : s.mode = .command) (hrest : s.rest = ' ' :: r) (hr : DelimitsAsBlank r) :
    s.next = (.ok ⟨.softDelimiter, ' ' :: r.takeWhile isBlank, s.pos⟩,
      ⟨s.source, s.pos + (r.takeWhile isBlank).length.succ, .arguments⟩) :=
  next_delimiter hm hrest (.inr ⟨List.cons_ne_nil _ _, List.all_takeWhile⟩)
    ⟨Text.stops_dropWhile _ _, fun _ => hr.ends⟩

/-- Blanks with a `!` behind them are a hard delimiter. -/
theorem next_blank_hard (hm : s.mode = .command) (hrest : s.rest = ' ' :: r)
    (hr : Text.startsWith (r.dropWhile isBlank) "!" = true) :
    ∃ text s', s.next = (.ok ⟨.hardDelimiter, text, s.pos⟩, s') := by
  obtain ⟨t, ht⟩ := Text.startsWith_iff.mp hr
  have hblank : isBlank ' ' = true := rfl
  have hscan : s.mode.scan s.rest = .lexeme 0 .hardDelimiter
      (' ' :: r.takeWhile isBlank ++ '!' :: t.takeWhile isBlank) := by
    rw [hm, hrest, Mode.scan]
    simp only [Mode.scanCommand, List.takeWhile_cons_of_pos hblank,
      List.dropWhile_cons_of_pos hblank, ← ht]
    rfl
  exact ⟨_, _, by rw [next, hscan]; rfl⟩

end Scanner

section

variable {u r : Text} {pre post : List Token} {tok : Token} {last : Scanner}

/-- A delimiter at a colon is the colon with the blanks behind it. -/
theorem Pulls.at_colon
    (hp : Pulls (Scanner.start (u ++ ':' :: r) .content) (pre ++ tok :: post) last)
    (hne : ∀ t ∈ pre, t.kind ≠ .eof) (hk : tok.kind = .softDelimiter)
    (ho : tok.offset = u.length) :
    Pulls (Scanner.start (u ++ ':' :: r) .content) pre ⟨u ++ ':' :: r, u.length, .command⟩ ∧
      Pulls ⟨u ++ ':' :: r, u.length + (r.takeWhile isBlank).length.succ, .arguments⟩ post
        last := by
  obtain ⟨s, hpre, hpost⟩ := hp.split
  cases hpost with
  | @more _ s₁ _ _ _ hn hpost =>
  change s.next = _ at hn
  obtain ⟨hmode, hoffset⟩ := Scanner.of_next_softDelimiter hn hk
  obtain ⟨source, pos, mode⟩ := s
  obtain rfl : source = u ++ ':' :: r := (hpre.lexes hne).1
  obtain rfl : mode = .command := hmode
  obtain rfl : pos = u.length := hoffset.symm.trans ho
  rw [Scanner.next_colon (s := ⟨u ++ ':' :: r, u.length, .command⟩) rfl List.drop_left] at hn
  cases hn
  exact ⟨hpre, hpost⟩

/-- **The tokens before a delimiter** are the same before a blank, where no
blank stands before it. -/
theorem Pulls.before_blank
    (hp : Pulls (Scanner.start (u ++ ':' :: r) .content) pre ⟨u ++ ':' :: r, u.length, .command⟩)
    (hne : ∀ t ∈ pre, t.kind ≠ .eof) (hu : u.getLast?.any isBlank = false) :
    Pulls (Scanner.start (u ++ ' ' :: r) .content) pre ⟨u ++ ' ' :: r, u.length, .command⟩ := by
  have hcut := hp.cut hne List.drop_left
  have hnil : (⟨u, u.length, .command⟩ : Scanner).rest = [] := List.drop_length
  have hends : Mode.content.LastEnds (pre.map Token.lexeme)
      ((⟨u, u.length, .command⟩ : Scanner).rest ++ ' ' :: r) := by
    rw [hnil]
    exact (hcut.lexes hne).2.lastEnds_blank r rfl hnil hu
  exact (hcut.extend (Nat.zero_le _) hne hends).1

/-- **A blank in the place of a colon** that delimits is a delimiter, and all
other tokens stay as they are. -/
theorem Pulls.blank_for_colon
    (hp : Pulls (Scanner.start (u ++ ':' :: r) .content) (pre ++ tok :: post) last)
    (hne : ∀ t ∈ pre, t.kind ≠ .eof) (hk : tok.kind = .softDelimiter)
    (ho : tok.offset = u.length) (hu : u.getLast?.any isBlank = false)
    (hr : DelimitsAsBlank r) : ∃ tok' last',
      Pulls (Scanner.start (u ++ ' ' :: r) .content) (pre ++ tok' :: post) last' ∧
        tok'.kind = tok.kind ∧ tok'.offset = tok.offset ∧ last.SameAhead last' := by
  obtain ⟨hpre, hpost⟩ := hp.at_colon hne hk ho
  have hn := Scanner.next_blank (s := ⟨u ++ ' ' :: r, u.length, .command⟩) rfl List.drop_left hr
  -- the same is ahead behind both delimiters
  obtain ⟨last', hpost', hlast⟩ := hpost.sameAhead (Scanner.sameAhead_behind u r ':' ' ' _ _)
  exact ⟨_, last', (hpre.before_blank hne hu).append (.more hn hpost'), hk.symm, ho.symm, hlast⟩

/-- Where a `!` stands behind the blanks, they are a hard delimiter with it. -/
theorem Pulls.hard_for_colon
    (hp : Pulls (Scanner.start (u ++ ':' :: r) .content) (pre ++ tok :: post) last)
    (hne : ∀ t ∈ pre, t.kind ≠ .eof) (hk : tok.kind = .softDelimiter)
    (ho : tok.offset = u.length) (hu : u.getLast?.any isBlank = false)
    (hr : Text.startsWith (r.dropWhile isBlank) "!" = true) :
    ∃ text,
      ⟨.hardDelimiter, text, u.length⟩ ∈ (Scanner.start (u ++ ' ' :: r) .content).drain.1 := by
  obtain ⟨hpre, -⟩ := hp.at_colon hne hk ho
  obtain ⟨text, s', hn⟩ :=
    Scanner.next_blank_hard (s := ⟨u ++ ' ' :: r, u.length, .command⟩) rfl List.drop_left hr
  have hpulls := (hpre.before_blank hne hu).append (.more hn (.none s'))
  refine ⟨text, (Scanner.prefix_drain hpulls ?_).mem (by simp)⟩
  exact List.forall_mem_append.mpr ⟨hne, by simp⟩

end

end ClearSilver
