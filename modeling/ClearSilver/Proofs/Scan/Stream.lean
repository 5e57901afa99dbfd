/-
# The tokens of a source

A text is read lexeme by lexeme, each in the mode that the one before it leads
to (`Lexes`); a scanner gives the same lexemes as tokens (`Pulls.lexes`,
`Lexes.pulls`), and the end is all that stops it besides a fault. Tokens are
lexical if each is a lexeme of its mode and no literal text stands beside
literal text (`Lexical`); what a scanner gives is (`Pulls.lexical`). A template
has the tokens that lead to the end of its text (`tokenize_eq_ok_iff`).

Key definitions: `Lexeme`, `Token.lexeme`, `Lexes`, `Scanner.Gives`, `Lexical`.
Key theorems: `Scanner.next_cases`, `Scanner.gives_of_next`, `Scanner.drain_cases`,
`Pulls.lexes`, `Lexes.pulls`, `Pulls.lexical`, `tokenize_eq_ok_iff`.
-/
import ClearSilver.Proofs.Scan.Lexeme
import ClearSilver.Proofs.Script.Feed

namespace ClearSilver

/-- A kind with a text. -/
abbrev Lexeme := Token.Kind × Text

/-- A token without its place. -/
def Token.lexeme (tok : Token) : Lexeme := (tok.kind, tok.text)

theorem map_lexeme_fst (toks : List Token) :
    (toks.map Token.lexeme).map Prod.fst = toks.map (·.kind) := List.map_map ..

/-! ### Texts read lexeme by lexeme -/

/-- A text that is read from one mode as some lexemes, up to a mode and a rest. -/
inductive Lexes : Mode → Text → List Lexeme → Mode → Text → Prop
  | none (mode : Mode) (t : Text) : Lexes mode t [] mode t
  | more {mode mode' : Mode} {k : Token.Kind} {b x r t' : Text} {ls : List Lexeme}
      (hb : mode.Skips b) (hx : mode.IsLexeme k x) (hr : mode.Ends k x r)
      (h : Lexes (mode.step k) r ls mode' t') : Lexes mode (b ++ (x ++ r)) ((k, x) :: ls) mode' t'

theorem Lexes.append {m₁ m₂ m₃ : Mode} {t₁ t₂ t₃ : Text} {ls ls' : List Lexeme}
    (h : Lexes m₁ t₁ ls m₂ t₂) (h' : Lexes m₂ t₂ ls' m₃ t₃) : Lexes m₁ t₁ (ls ++ ls') m₃ t₃ := by
  induction h with
  | none _ _ => exact h'
  | more hb hx hr _ ih => exact .more hb hx hr (ih h')

theorem Lexes.split {m' : Mode} {t' : Text} {ls' : List Lexeme} :
    ∀ {ls : List Lexeme} {m : Mode} {t : Text}, Lexes m t (ls ++ ls') m' t' →
      ∃ m₁ t₁, Lexes m t ls m₁ t₁ ∧ Lexes m₁ t₁ ls' m' t'
  | [], m, t, h => ⟨m, t, .none m t, h⟩
  | _ :: _, _, _, .more hb hx hr h =>
    let ⟨m₁, t₁, h₁, h₂⟩ := h.split
    ⟨m₁, t₁, .more hb hx hr h₁, h₂⟩

/-- More blanks can stand before a lexeme. -/
theorem Lexes.skip {m m' : Mode} {b t t' : Text} {ls : List Lexeme} (h : Lexes m t ls m' t')
    (hb : m.Skips b) (hnil : ls = [] → b = []) : Lexes m (b ++ t) ls m' t' := by
  cases h with
  | none => rw [hnil rfl]; exact .none m t
  | @more _ _ _ b' x r _ _ hb' hx hr h =>
    rw [← List.append_assoc]
    refine .more ⟨?_, fun hm => ?_⟩ hx hr h
    · rw [List.all_append, hb.1, hb'.1]
      rfl
    · rw [hb.2 hm, hb'.2 hm]
      rfl

/-! ### Scanners -/

namespace Scanner

/-- What the next token is: a lexeme that stands, a fault behind the blanks,
or the end behind them. -/
theorem next_cases (s : Scanner) :
    (∃ b k x r, s.rest = b ++ (x ++ r) ∧ s.mode.Skips b ∧ s.mode.IsLexeme k x ∧
      s.mode.Ends k x r ∧ s.next = (.ok ⟨k, x, s.pos + b.length⟩,
        ⟨s.source, s.pos + b.length + x.length, s.mode.step k⟩)) ∨
    (∃ b c r, s.rest = b ++ c :: r ∧ s.mode.Skips b ∧
      s.next = (.error ⟨s.mode, c, s.pos + b.length⟩, s)) ∨
    (s.mode.Skips s.rest ∧
      s.next = (.ok (Token.atEnd s.source.length), ⟨s.source, s.source.length, s.mode⟩)) := by
  cases h : s.mode.scan s.rest with
  | lexeme n k x =>
    obtain ⟨b, r, ht, rfl, hb, hx, hr⟩ := Mode.stands_of_scan h
    exact .inl ⟨b, k, x, r, ht, hb, hx, hr, by simp [next, h]⟩
  | stuck n c =>
    obtain ⟨b, r, ht, rfl, hb⟩ := Mode.stuck_of_scan h
    exact .inr (.inl ⟨b, c, r, ht, hb, by simp [next, h]⟩)
  | ended => exact .inr (.inr ⟨Mode.ended_of_scan h, by simp [next, h]⟩)

/-- What a scanner gives as a token, and where it is then: a lexeme that stands,
or the end behind blanks. -/
inductive Gives (s : Scanner) : Token → Scanner → Prop
  | lexeme {b x r : Text} {k : Token.Kind} (ht : s.rest = b ++ (x ++ r)) (hb : s.mode.Skips b)
      (hx : s.mode.IsLexeme k x) (hr : s.mode.Ends k x r) :
      Gives s ⟨k, x, s.pos + b.length⟩ ⟨s.source, s.pos + b.length + x.length, s.mode.step k⟩
  | atEnd (hb : s.mode.Skips s.rest) :
      Gives s (Token.atEnd s.source.length) ⟨s.source, s.source.length, s.mode⟩

theorem gives_of_next {s s' : Scanner} {tok : Token} (h : s.next = (.ok tok, s')) :
    s.Gives tok s' := by
  rcases s.next_cases with ⟨b, k, x, r, ht, hb, hx, hr, hn⟩ | ⟨b, c, r, -, -, hn⟩ | ⟨hb, hn⟩ <;>
    rw [hn] at h <;> cases h
  · exact .lexeme ht hb hx hr
  · exact .atEnd hb

/-- A fault is met behind blanks, and the scanner stays where it was. -/
theorem stuck_of_next {s s' : Scanner} {fault : LexicalFault} (h : s.next = (.error fault, s')) :
    ∃ b c r, s.rest = b ++ c :: r ∧ s.mode.Skips b ∧ fault = ⟨s.mode, c, s.pos + b.length⟩ ∧
      s' = s := by
  rcases s.next_cases with ⟨b, k, x, r, -, -, -, -, hn⟩ | ⟨b, c, r, ht, hb, hn⟩ | ⟨-, hn⟩ <;>
    rw [hn] at h <;> cases h
  exact ⟨b, c, r, ht, hb, rfl, rfl⟩

theorem next_of_stands {s : Scanner} {b x r : Text} {k : Token.Kind} (ht : s.rest = b ++ (x ++ r))
    (hb : s.mode.Skips b) (hx : s.mode.IsLexeme k x) (hr : s.mode.Ends k x r) :
    s.next = (.ok ⟨k, x, s.pos + b.length⟩,
      ⟨s.source, s.pos + b.length + x.length, s.mode.step k⟩) := by
  simp [next, ht, Mode.scan_of_stands hb hx hr]

theorem next_of_rest_nil {s : Scanner} (h : s.rest = []) :
    s.next = (.ok (Token.atEnd s.source.length), ⟨s.source, s.source.length, s.mode⟩) := by
  simp [next, h, Mode.scan_nil]

/-- The text that is left after a lexeme. -/
theorem rest_mk {source b x r : Text} {pos : Nat} {mode mode' : Mode}
    (h : (⟨source, pos, mode⟩ : Scanner).rest = b ++ (x ++ r)) :
    (⟨source, pos + b.length + x.length, mode'⟩ : Scanner).rest = r := by
  simp only [rest] at h ⊢
  rw [Nat.add_assoc, ← List.drop_drop, h, ← List.append_assoc, ← List.length_append,
    List.drop_left]

end Scanner

theorem Mode.IsLexeme.ne_nil {mode : Mode} {k : Token.Kind} {x r : Text} (hx : mode.IsLexeme k x)
    (hr : mode.Ends k x r) : x ≠ [] ∧ k ≠ .eof :=
  (Mode.scan_lexeme (Mode.scan_of_stands (Mode.skips_nil mode) hx hr)).2

/-- The end is given where nothing is left but what the mode passes over. -/
theorem Scanner.skips_of_next {s s' : Scanner} {tok : Token} (h : s.next = (.ok tok, s'))
    (hk : tok.kind = .eof) : s.mode.Skips s.rest := by
  cases Scanner.gives_of_next h with
  | lexeme _ _ hx hr => exact absurd hk (hx.ne_nil hr).2
  | atEnd hb => exact hb

/-- Behind its blanks the arguments are at the end. -/
theorem Scanner.next_of_blanks {s : Scanner} (hm : s.mode = .arguments)
    (h : s.rest.all isBlank = true) : s.next =
      (.ok (Token.atEnd s.source.length), ⟨s.source, s.source.length, s.mode⟩) := by
  have hdrop : s.rest.dropWhile isBlank = [] := by
    simpa using Text.dropWhile_run (r := []) h trivial
  simp [next, hm, Mode.scan, hdrop, Mode.scanArgument]

/-! ### From a text to the tokens of a scanner and back -/

/-- A scanner gives the lexemes of its text as tokens. -/
theorem Lexes.pulls {m m' : Mode} {t t' : Text} {ls : List Lexeme} (h : Lexes m t ls m' t') :
    ∀ (source : Text) (pos : Nat), (⟨source, pos, m⟩ : Scanner).rest = t →
      ∃ toks pos', Pulls (⟨source, pos, m⟩ : Scanner) toks ⟨source, pos', m'⟩ ∧
        toks.map Token.lexeme = ls ∧ (⟨source, pos', m'⟩ : Scanner).rest = t' := by
  induction h with
  | none m t => exact fun source pos ht => ⟨[], pos, .none _, rfl, ht⟩
  | more hb hx hr _ ih =>
    intro source pos ht
    have hnext := Scanner.next_of_stands ht hb hx hr
    obtain ⟨toks, pos', hp, rfl, hrest⟩ := ih source _ (Scanner.rest_mk ht)
    exact ⟨_ :: toks, pos', .more hnext hp, rfl, hrest⟩

/-- Tokens none of which is the end are the lexemes of the text. -/
theorem Pulls.lexes {s s' : Scanner} {toks : List Token} (h : Pulls s toks s')
    (hne : ∀ tok ∈ toks, tok.kind ≠ .eof) :
    s'.source = s.source ∧ Lexes s.mode s.rest (toks.map Token.lexeme) s'.mode s'.rest := by
  induction h with
  | none s => exact ⟨rfl, .none _ _⟩
  | @more s s₁ s₂ tok toks hp _ ih =>
    cases Scanner.gives_of_next hp with
    | lexeme ht hb hx hr =>
      obtain ⟨hsrc, hl⟩ := ih fun tok htok => hne tok (List.mem_cons_of_mem _ htok)
      refine ⟨hsrc, ?_⟩
      rw [Scanner.rest_mk ht] at hl
      rw [ht]
      exact .more hb hx hr hl
    | atEnd _ => exact absurd rfl (hne _ List.mem_cons_self)

/-- Every lexeme has a character of its own. -/
theorem Lexes.length_le {m m' : Mode} {t t' : Text} {ls : List Lexeme} (h : Lexes m t ls m' t') :
    ls.length + t'.length ≤ t.length := by
  induction h with
  | none m t => simp
  | more hb hx hr _ ih =>
    have := List.length_pos_iff.mpr (hx.ne_nil hr).1
    simp only [List.length_cons, List.length_append]
    omega

/-! ### The tokens of a template -/

namespace Scanner

theorem length_rest (s : Scanner) : s.rest.length = s.source.length - s.pos := List.length_drop

theorem drainUpTo_of_pulls {s s' last : Scanner} {toks : List Token} {tok : Token}
    (h : Pulls s toks s') (hne : ∀ t ∈ toks, t.kind ≠ .eof) (hn : s'.next = (.ok tok, last))
    (hk : tok.kind = .eof) :
    ∀ n, toks.length < n → drainUpTo n s = (toks ++ [tok], none, last) := by
  induction h with
  | none s =>
    intro n hlt
    obtain ⟨n, rfl⟩ : ∃ m, n = m + 1 := ⟨n - 1, by simp at hlt; omega⟩
    simp [drainUpTo, hn, hk]
  | @more s s₁ s₂ t toks hp _ ih =>
    intro n hlt
    obtain ⟨n, rfl⟩ : ∃ m, n = m + 1 := ⟨n - 1, by simp at hlt; omega⟩
    change s.next = _ at hp
    have hrest := ih (fun t ht => hne t (List.mem_cons_of_mem _ ht)) hn n (by simpa using hlt)
    simp [drainUpTo, hp, hne t List.mem_cons_self, hrest]

/-- All tokens that are left: those up to the end, or those up to a fault. -/
theorem drainUpTo_cases : ∀ {n : Nat} {s : Scanner}, s.rest.length < n →
    ∃ pre s', (∀ t ∈ pre, t.kind ≠ .eof) ∧ Pulls s pre s' ∧
      ((∃ last, s'.next = (.ok (Token.atEnd s.source.length), last) ∧
          drainUpTo n s = (pre ++ [Token.atEnd s.source.length], none, last)) ∨
        ∃ fault, s'.next = (.error fault, s') ∧ drainUpTo n s = (pre, some fault, s'))
  | 0, _, hlt => absurd hlt (Nat.not_lt_zero _)
  | n + 1, s, hlt => by
    rcases s.next_cases with ⟨b, k, x, r, ht, hb, hx, hr, hn⟩ | ⟨b, c, r, -, -, hn⟩ | ⟨-, hn⟩
    · obtain ⟨hne, hk⟩ := hx.ne_nil hr
      have hpos := List.length_pos_iff.mpr hne
      have hlt' : (⟨s.source, s.pos + b.length + x.length, s.mode.step k⟩ : Scanner).rest.length
          < n := by
        rw [rest_mk ht]
        rw [ht] at hlt
        simp only [List.length_append] at hlt
        omega
      obtain ⟨pre, s', hpre, hp, hend⟩ := drainUpTo_cases hlt'
      have hpre' : ∀ t ∈ (⟨k, x, s.pos + b.length⟩ : Token) :: pre, t.kind ≠ .eof :=
        List.forall_mem_cons.mpr ⟨hk, hpre⟩
      refine ⟨_ :: pre, s', hpre', .more hn hp, ?_⟩
      rcases hend with ⟨last, hlast, hd⟩ | ⟨fault, hfault, hd⟩
      · exact .inl ⟨last, hlast, by simp [drainUpTo, hn, hk, hd]⟩
      · exact .inr ⟨fault, hfault, by simp [drainUpTo, hn, hk, hd]⟩
    · exact ⟨[], s, by simp, .none _, .inr ⟨_, hn, by simp [drainUpTo, hn]⟩⟩
    · exact ⟨[], s, by simp, .none _, .inl ⟨_, hn, by simp [drainUpTo, hn, Token.atEnd]⟩⟩

/-- What a drained scanner gave, and where it stopped. -/
theorem drain_cases (s : Scanner) :
    ∃ pre s', (∀ t ∈ pre, t.kind ≠ .eof) ∧ Pulls s pre s' ∧
      ((∃ last, s'.next = (.ok (Token.atEnd s.source.length), last) ∧
          s.drain = (pre ++ [Token.atEnd s.source.length], none, last)) ∨
        ∃ fault, s'.next = (.error fault, s') ∧ s.drain = (pre, some fault, s')) :=
  drainUpTo_cases (Nat.lt_succ_of_le (Nat.le_of_eq s.length_rest))

/-- None but the last token of a drained scanner is the end. -/
theorem ne_eof_of_drain {s : Scanner} {pre post : List Token} {tok : Token}
    (h : s.drain.1 = pre ++ tok :: post) : ∀ t ∈ pre, t.kind ≠ .eof := by
  obtain ⟨us, s', hne, -, hend⟩ := s.drain_cases
  obtain ⟨more, rfl⟩ : ∃ more, us = pre ++ more := by
    rcases hend with ⟨last, -, hd⟩ | ⟨fault, -, hd⟩ <;> rw [hd] at h
    · have hus := congrArg List.dropLast h
      rw [List.dropLast_concat, List.dropLast_append_of_ne_nil (List.cons_ne_nil tok post)] at hus
      exact ⟨_, hus⟩
    · exact ⟨_, h⟩
  exact (List.forall_mem_append.mp hne).1

/-- Tokens that a scanner gives stand first among all that are left. -/
theorem prefix_drain {s s' : Scanner} {toks : List Token} (hp : Pulls s toks s')
    (hne : ∀ t ∈ toks, t.kind ≠ .eof) : toks <+: s.drain.1 := by
  obtain ⟨pre, s₁, -, hp₁, hend⟩ := s.drain_cases
  have hpre : pre <+: s.drain.1 := by
    rcases hend with ⟨last, -, hd⟩ | ⟨fault, -, hd⟩
    · exact ⟨[Token.atEnd s.source.length], by rw [hd]⟩
    · exact ⟨[], by rw [hd, List.append_nil]⟩
  rcases hp.compare hp₁ with ⟨vs, rfl, -⟩ | ⟨vs, rfl, hv⟩
  · exact (List.prefix_append _ _).trans hpre
  · cases hv with
    | none => rwa [List.append_nil]
    | more hn _ =>
      -- behind them comes the end or a fault
      rcases hend with ⟨last, hlast, -⟩ | ⟨fault, hfault, -⟩
      · obtain rfl := Except.ok.inj (Prod.mk.inj (hn.symm.trans hlast)).1
        exact absurd rfl (hne _ (List.mem_append_right _ List.mem_cons_self))
      · cases (Prod.mk.inj (hn.symm.trans hfault)).1

end Scanner

/-- A template has the tokens that lead to the end, and the end. -/
theorem tokenize_eq_ok_iff {source : Text} {toks : List Token} :
    tokenize source = .ok toks ↔ ∃ pre s, toks = pre ++ [Token.atEnd source.length] ∧
      (∀ t ∈ pre, t.kind ≠ .eof) ∧ Pulls (Scanner.start source .content) pre s ∧
      ∃ last, s.next = (.ok (Token.atEnd source.length), last) := by
  unfold tokenize
  constructor
  · intro h
    obtain ⟨pre, s, hne, hp, hend⟩ := (Scanner.start source .content).drain_cases
    rcases hend with ⟨last, hn, hd⟩ | ⟨fault, -, hd⟩
    · rw [hd] at h
      cases h
      exact ⟨pre, s, rfl, hne, hp, last, hn⟩
    · rw [hd] at h
      cases h
  · rintro ⟨pre, s, rfl, hne, hp, last, hn⟩
    have hle := (hp.lexes hne).2.length_le
    rw [List.length_map, (Scanner.start source .content).length_rest] at hle
    have hd := Scanner.drainUpTo_of_pulls hp hne hn rfl
      ((Scanner.start source .content).source.length - (Scanner.start source .content).pos + 1)
      (by omega)
    simp only [Scanner.drain, hd]

/-- The tokens up to the end are at most as many as the characters. -/
theorem Pulls.length_le {source : Text} {mode : Mode} {toks : List Token} {s : Scanner}
    (h : Pulls (Scanner.start source mode) toks s) (hne : ∀ t ∈ toks, t.kind ≠ .eof) :
    toks.length ≤ source.length := by
  have hle := (h.lexes hne).2.length_le
  have hlen := (Scanner.start source mode).length_rest
  rw [List.length_map, hlen] at hle
  simp only [Scanner.start] at hle
  omega

/-- A drained scanner gave at most one token for each character that was left, and
the end. -/
theorem Scanner.length_drain_le (s : Scanner) :
    s.drain.1.length ≤ s.source.length - s.pos + 1 := by
  obtain ⟨us, s', hne, hp, hend⟩ := s.drain_cases
  have hle := (hp.lexes hne).2.length_le
  rw [List.length_map, s.length_rest] at hle
  rcases hend with ⟨last, -, hd⟩ | ⟨fault, -, hd⟩ <;> rw [hd]
  · rw [List.length_append, List.length_singleton]
    omega
  · show us.length ≤ _
    omega

/-! ### Lexical tokens -/

/-- Is each token a lexeme of the mode that those before it lead to, or the
end, with no literal text beside literal text? -/
def Lexical : Mode → List Token → Prop
  | _, [] => True
  | mode, tok :: toks => (tok.kind = .eof ∨ mode.IsLexeme tok.kind tok.text) ∧
      (tok.kind = .data → ∀ next ∈ toks.head?, next.kind ≠ .data) ∧
      Lexical (mode.step tok.kind) toks

theorem Lexical.tail {mode : Mode} : ∀ {us vs : List Token}, Lexical mode (us ++ vs) →
    ∃ mode', Lexical mode' vs
  | [], _, h => ⟨mode, h⟩
  | _ :: _, _, h => Lexical.tail h.2.2

/-- The first of some lexical tokens are lexical. -/
theorem Lexical.front : ∀ {us vs : List Token} {mode : Mode}, Lexical mode (us ++ vs) →
    Lexical mode us
  | [], _, _, _ => trivial
  | [_], _, _, h => ⟨h.1, fun _ _ hnext => absurd hnext (by simp), trivial⟩
  | _ :: u :: us, _, _, h => ⟨h.1, h.2.1, @Lexical.front (u :: us) _ _ h.2.2⟩

theorem Mode.step_eof (mode : Mode) : mode.step .eof = mode := by cases mode <;> rfl

/-- After literal text comes a tag or the end. -/
theorem Scanner.next_ne_data {s s' : Scanner} {tok : Token} (hm : s.mode = .content)
    (hr : s.rest = [] ∨ opensTag s.rest = true) (hn : s.next = (.ok tok, s')) :
    tok.kind ≠ .data := by
  intro hk
  cases Scanner.gives_of_next hn with
  | @lexeme b x r k ht hb hx hx' =>
    obtain rfl : k = .data := hk
    obtain rfl : b = [] := hb.2 (by simp [hm])
    rw [hm] at hx hx'
    obtain ⟨hne, hocc⟩ := hx
    rw [ht, List.nil_append] at hr
    have ho := opensTag_append hne hx' (hr.resolve_left (by simp [hne]))
    rw [Text.occurs_eq_false.mp hocc [] x rfl] at ho
    exact Bool.noConfusion ho
  | atEnd _ => cases hk

/-- What a scanner gives is lexical. -/
theorem Pulls.lexical {s s' : Scanner} {toks : List Token} (h : Pulls s toks s') :
    Lexical s.mode toks := by
  induction h with
  | none s => trivial
  | @more s s₁ s₂ tok toks hp hs ih =>
    cases Scanner.gives_of_next hp with
    | @lexeme b x r k ht hb hx hr =>
      refine ⟨.inr hx, fun hk next hnext => ?_, ih⟩
      obtain rfl : k = .data := hk
      have hm : s.mode = .content := hx.mode_eq_content (.inl rfl)
      cases hs with
      | none => simp at hnext
      | more hp' _ =>
        obtain rfl := Option.some.inj hnext
        refine Scanner.next_ne_data ?_ ?_ hp'
        · simp [hm, Mode.step]
        · rw [Scanner.rest_mk ht]
          rw [hm] at hr
          exact hr
    | atEnd _ =>
      refine ⟨.inl rfl, fun hk => absurd hk (by simp [Token.atEnd]), ?_⟩
      simpa [Token.atEnd, Mode.step_eof] using ih

end ClearSilver
