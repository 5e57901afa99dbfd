/-
# The shape of a token stream

A template that the scanner reads to its end has the tokens of literal text and
tags in turn (`Form.tokenStream`): a tag is some keywords, words and slashes,
then nothing, or a delimiter and arguments, or a comment, and the last tag can
be cut off by the end. The form is over kinds of tokens alone, so it says what
each mode of the scanner can give and which mode comes after it: in each mode
the tokens that are left have a form of their own (`Mode.remaining`), and a
lexeme of the mode leads from one such form to the next
(`Mode.IsLexeme.remaining`).

Key definitions: `Form.tagMark`, `Form.argument`, `Form.tagText`,
`Form.tokenStream`, `Mode.remaining`, `Token.Kind.isTagEdge`,
`Token.Kind.isDelimiter`.
Key theorems: `Mode.IsLexeme.remaining`, `Lexes.remaining`,
`Lexical.alternates`, `Lexical.after_tagOpen`, `tokenize_shape`.
-/
import ClearSilver.Proofs.Grammar.Matches
import ClearSilver.Proofs.Scan.Splice
import ClearSilver.Proofs.Scan.Tiling
import Mathlib.Data.List.Chain

namespace ClearSilver

/-! ### The forms -/

namespace Form

/-- What can stand before the delimiter of a tag: a word, the `/` of a close
tag or a keyword. -/
def tagMark : Form :=
  anyOf (token .word) (symbol .slash :: Keyword.spellings.map fun s => keyword s.2)

/-- What can stand behind the delimiter of a tag. -/
def argument : Form :=
  anyOf (token .word) (token .string :: token .decimal :: token .hex :: Symbol.all.map symbol)

/-- What stands between `<?cs` and `?>`, as far as the scanner looks. -/
def tagText : Form :=
  both (many tagMark) (anyOf empty
    [both (either (token .softDelimiter) (token .hardDelimiter)) (many argument),
     both (token .commentStart) (optional (token .comment))])

/-- The tokens of a template that begins with a tag or is empty. -/
def tagStream : Form :=
  sequence [many (sequence [token .tagOpen, tagText, token .tagClose, optional (token .data)]),
    optional (both (token .tagOpen) tagText), token .eof]

/-- The tokens of a template: tags with literal text before, between and
behind them, the last of them perhaps cut off by the end. -/
def tokenStream : Form := both (optional (token .data)) tagStream

/-- How a tag ends, with what follows it. -/
def tagEnd : Form := either (token .eof) (both (token .tagClose) tokenStream)

theorem tagStream_within : tagStream.Within tokenStream := within_behind_optional _ _

/-- A whole tag with what follows it. -/
theorem tag_within : (sequence [token .tagOpen, tagText, token .tagClose, tokenStream]).Within
    tagStream := by
  intro ks h
  cases h with | both hopen h =>
  cases h with | both htext h =>
  cases h with | both hclose h =>
  cases h with | both hdata h =>
  cases h with | both htags hlast =>
  have htag := Derives.both hopen (.both htext (.both hclose hdata))
  have hall : tagStream.Derives _ := .both (.more htag htags) hlast
  simpa only [List.append_assoc] using hall

/-- A tag that the end cuts off. -/
theorem cut_within : (sequence [token .tagOpen, tagText, token .eof]).Within tagStream := by
  intro ks h
  cases h with | both hopen h =>
  cases h with | both htext hend =>
  have hcut : (optional (both (token .tagOpen) tagText)).Derives _ := .left (.both hopen htext)
  have hall : tagStream.Derives _ := .both .none (.both hcut hend)
  simpa only [List.append_assoc, List.nil_append] using hall

/-- A tag with what ends it. -/
theorem opened_within : (sequence [token .tagOpen, tagText, tagEnd]).Within tagStream := by
  intro ks h
  cases h with | both hopen h =>
  cases h with | both htext h =>
  cases h with
  | left hend => exact cut_within _ (.both hopen (.both htext hend))
  | right h => exact tag_within _ (.both hopen (.both htext h))

/-- A repetition takes in one more in front of it. -/
theorem derives_many_cons {f g : Form} {k : Token.Kind} {ks : List Token.Kind} (hk : f.Derives [k])
    (h : (both (many f) g).Derives ks) : (both (many f) g).Derives (k :: ks) := by
  cases h with | both hf hg =>
  exact .both (.more hk hf) hg

/-- What does not begin with the optional token is what stands behind it. -/
theorem derives_of_head?_ne {f : Form} {k : Token.Kind} {ks : List Token.Kind}
    (h : (both (optional (token k)) f).Derives ks) (hk : ks.head? ≠ some k) : f.Derives ks := by
  cases h with | both ho hf =>
  cases ho with
  | left ht =>
    cases ht
    exact absurd rfl hk
  | right he =>
    cases he
    exact hf

theorem tagMark_keyword (k : Keyword) : tagMark.Derives [.keyword k] := by
  have hmem : keyword k ∈ symbol .slash :: Keyword.spellings.map fun s => keyword s.2 := by
    cases k <;> decide
  exact within_anyOf _ hmem _ (.token _)

theorem argument_symbol (s : Symbol) : argument.Derives [.symbol s] := by
  have hmem : symbol s ∈ token .string :: token .decimal :: token .hex :: Symbol.all.map symbol := by
    have hsym := List.mem_map_of_mem (f := symbol) s.mem_all
    exact List.mem_cons_of_mem _ (List.mem_cons_of_mem _ (List.mem_cons_of_mem _ hsym))
  exact within_anyOf _ hmem _ (.token _)

/-- One more mark in front of what a tag holds. -/
theorem tagText_mark {f : Form} {k : Token.Kind} {ks : List Token.Kind} (hk : tagMark.Derives [k])
    (h : (both tagText f).Derives ks) : (both tagText f).Derives (k :: ks) :=
  assoc_within _ _ _ _ (derives_many_cons hk (within_assoc _ _ _ _ h))

end Form

/-! ### What each mode leaves -/

namespace Mode

open Form

/-- The form of the tokens that are left in a mode. -/
def remaining : Mode → Form
  | content => tokenStream
  | command => both tagText tagEnd
  | arguments => both (many argument) tagEnd
  | comment => both (optional (token .comment)) tagEnd

theorem remaining_eof (mode : Mode) : mode.remaining.Derives [.eof] := by
  have hend : tagEnd.Derives [.eof] := .left (.token .eof)
  cases mode with
  | content => exact .both (.right .empty) (.both .none (.both (.right .empty) (.token .eof)))
  | command => exact .both (.both .none (within_anyOf_first _ _ _ .empty)) hend
  | arguments => exact .both .none hend
  | comment => exact .both (.right .empty) hend

variable {mode : Mode} {k : Token.Kind} {x : Text} {ks : List Token.Kind}

theorem tagEnd_of_content (h : content.remaining.Derives ks) : tagEnd.Derives (.tagClose :: ks) :=
  .right (.both (.token .tagClose) h)

theorem remaining_content (hx : content.IsLexeme k x) (hnext : k = .data → ks.head? ≠ some .data)
    (h : (content.step k).remaining.Derives ks) : content.remaining.Derives (k :: ks) := by
  cases k <;> try exact False.elim hx
  case data => exact .both (.left (.token .data)) (derives_of_head?_ne h (hnext rfl))
  case tagOpen => exact tagStream_within _ (opened_within _ (.both (.token .tagOpen) h))

/-- Arguments stand behind their delimiter. -/
theorem remaining_delimiter (hk : (either (token .softDelimiter) (token .hardDelimiter)).Derives [k])
    (h : arguments.remaining.Derives ks) : command.remaining.Derives (k :: ks) := by
  cases h with | both hargs hend =>
  have htext : tagText.Derives _ := .both .none (within_anyOf _ (by simp) _ (.both hk hargs))
  exact .both htext hend

theorem remaining_command (hx : command.IsLexeme k x)
    (h : (command.step k).remaining.Derives ks) : command.remaining.Derives (k :: ks) := by
  cases k <;> try exact False.elim hx
  case keyword k => exact tagText_mark (tagMark_keyword k) h
  case word => exact tagText_mark (within_anyOf_first _ _ _ (.token _)) h
  case symbol s =>
    obtain ⟨rfl, -⟩ := hx
    exact tagText_mark (within_anyOf _ List.mem_cons_self _ (.token _)) h
  case softDelimiter => exact remaining_delimiter (.left (.token _)) h
  case hardDelimiter => exact remaining_delimiter (.right (.token _)) h
  case commentStart =>
    cases h with | both htext hend =>
    have hall : tagText.Derives _ :=
      .both .none (within_anyOf _ (by simp) _ (.both (.token .commentStart) htext))
    exact .both hall hend
  case tagClose => exact .both (.both .none (within_anyOf_first _ _ _ .empty)) (tagEnd_of_content h)

theorem remaining_arguments (hx : arguments.IsLexeme k x)
    (h : (arguments.step k).remaining.Derives ks) : arguments.remaining.Derives (k :: ks) := by
  cases k <;> try exact False.elim hx
  case tagClose => exact .both .none (tagEnd_of_content h)
  case symbol s => exact derives_many_cons (argument_symbol s) h
  case word => exact derives_many_cons (within_anyOf_first _ _ _ (.token _)) h
  all_goals exact derives_many_cons (within_anyOf _ (by simp) _ (.token _)) h

theorem remaining_comment (hx : comment.IsLexeme k x)
    (hnext : k = .comment → ks.head? ≠ some .comment)
    (h : (comment.step k).remaining.Derives ks) : comment.remaining.Derives (k :: ks) := by
  cases k <;> try exact False.elim hx
  case comment => exact .both (.left (.token _)) (derives_of_head?_ne h (hnext rfl))
  case tagClose => exact .both (.right .empty) (tagEnd_of_content h)

/-- **A lexeme of a mode stands in front of what the mode after it leaves**,
with no literal text before literal text and no text of a comment before more
of it. -/
theorem IsLexeme.remaining (hx : mode.IsLexeme k x)
    (hnext : k = .data ∨ k = .comment → ks.head? ≠ some k)
    (h : (mode.step k).remaining.Derives ks) : mode.remaining.Derives (k :: ks) := by
  cases mode with
  | content => exact remaining_content hx (fun hk => hk ▸ hnext (.inl hk)) h
  | command => exact remaining_command hx h
  | arguments => exact remaining_arguments hx h
  | comment => exact remaining_comment hx (fun hk => hk ▸ hnext (.inr hk)) h

end Mode

/-! ### The tokens of a text -/

section

variable {m m' : Mode} {t t' : Text} {ls : List Lexeme}

/-- Behind literal text a tag opens, and behind the text of a comment it ends. -/
theorem Lexes.head?_ne {k : Token.Kind} {x r : Text} (hx : m.IsLexeme k x) (hr : m.Ends k x r)
    (h : Lexes (m.step k) r ls m' t') (hk : k = .data ∨ k = .comment) :
    (ls.map Prod.fst).head? ≠ some k := by
  cases ls with
  | nil => simp
  | cons l ls =>
    have hne : r ≠ [] := by
      have hle := h.length_le
      rintro rfl
      simp at hle
    rcases hk with rfl | rfl
    · cases m <;> try exact False.elim hx
      have hopens := h.opensTag_iff.mp (hr.resolve_left hne)
      simp [hopens]
    · cases m <;> try exact False.elim hx
      have hcloses := h.closesTag_iff_of_comment.mp (hr.resolve_left hne)
      simp [hcloses]

/-- **The lexemes of a text are those that its mode leaves.** -/
theorem Lexes.remaining (h : Lexes m t ls m' t') :
    m.remaining.Derives (ls.map Prod.fst ++ [.eof]) := by
  induction h with
  | none m t => exact m.remaining_eof
  | @more m _ k _ x r _ ls _ hx hr h ih =>
    refine hx.remaining (fun hk => ?_) ih
    have hne := h.head?_ne hx hr hk
    cases ls with
    | nil => rcases hk with rfl | rfl <;> simp
    | cons l ls => exact hne

end

/-! ### The marks of the tags -/

/-- Does the token open or close a tag? -/
def Token.Kind.isTagEdge : Token.Kind → Bool
  | .tagOpen | .tagClose => true
  | _ => false

/-- Does the token stand between a keyword and its arguments? -/
def Token.Kind.isDelimiter : Token.Kind → Bool
  | .softDelimiter | .hardDelimiter => true
  | _ => false

/-- The mark that comes next: outside the tags one opens, inside it closes. -/
def Mode.nextEdge : Mode → Token.Kind
  | .content => .tagOpen
  | _ => .tagClose

/-- A mark is the one that comes next, and the other one comes after it; any
other lexeme changes nothing. -/
theorem Mode.IsLexeme.nextEdge {m : Mode} {k : Token.Kind} {x : Text} (hx : m.IsLexeme k x) :
    if k.isTagEdge then k = m.nextEdge ∧ (m.step k).nextEdge ≠ k
    else (m.step k).nextEdge = m.nextEdge := by
  cases m <;> cases k <;> first | exact False.elim hx | exact rfl | exact ⟨rfl, by decide⟩

/-- **The tags open and close in turn.** -/
theorem Lexical.alternates : ∀ {toks : List Token} {m : Mode}, Lexical m toks →
    (∀ k ∈ ((toks.map (·.kind)).filter (·.isTagEdge)).head?, k = m.nextEdge) ∧
      ((toks.map (·.kind)).filter (·.isTagEdge)).IsChain (· ≠ ·)
  | [], _, _ => ⟨by simp, .nil⟩
  | tok :: toks, m, ⟨hx, _, h⟩ => by
    obtain ⟨hhead, hchain⟩ := h.alternates
    rw [List.map_cons, List.filter_cons]
    rcases hx with hk | hx
    · rw [hk, Mode.step_eof] at hhead
      rw [hk]
      exact ⟨hhead, hchain⟩
    · have hedge := hx.nextEdge
      split at hedge
      · rw [if_pos ‹_›]
        refine ⟨fun k hk => ?_, List.isChain_cons.mpr ⟨fun k hk => ?_, hchain⟩⟩
        · obtain rfl := Option.some.inj hk
          exact hedge.1
        · rw [hhead k hk]
          exact hedge.2.symm
      · rw [if_neg ‹_›, ← hedge]
        exact ⟨hhead, hchain⟩

/-- No literal text stands beside literal text. -/
theorem Lexical.isChain : ∀ {toks : List Token} {m : Mode}, Lexical m toks →
    toks.IsChain fun a b => ¬(a.kind = .data ∧ b.kind = .data)
  | [], _, _ => .nil
  | _ :: _, _, ⟨_, hnext, h⟩ =>
    List.isChain_cons.mpr ⟨fun b hb hboth => hnext hboth.1 b hb hboth.2, h.isChain⟩

/-- Among the arguments and in a comment no delimiter and no keyword comes. -/
theorem Lexical.past_delimiter : ∀ {toks : List Token} {m : Mode}, Lexical m toks →
    m = .arguments ∨ m = .comment → (∀ tok ∈ toks, tok.kind ≠ .tagClose) →
      ∀ tok ∈ toks, tok.kind.isDelimiter = false ∧ ∀ k, tok.kind ≠ .keyword k
  | [], _, _, _, _ => by simp
  | tok :: toks, m, ⟨hx, _, h⟩, hm, hclose => by
    obtain ⟨htok, hclose⟩ := List.forall_mem_cons.mp hclose
    have hstep : (m.step tok.kind = .arguments ∨ m.step tok.kind = .comment) ∧
        tok.kind.isDelimiter = false ∧ ∀ k, tok.kind ≠ .keyword k := by
      rcases hx with hk | hx
      · rw [hk, Mode.step_eof]
        exact ⟨hm, rfl, by simp⟩
      · generalize tok.kind = k at hx htok
        rcases hm with rfl | rfl <;> cases k <;> first
          | exact False.elim hx
          | exact absurd rfl htok
          | exact ⟨.inl rfl, rfl, by simp⟩
          | exact ⟨.inr rfl, rfl, by simp⟩
    exact List.forall_mem_cons.mpr ⟨hstep.2, h.past_delimiter hstep.1 hclose⟩

/-- **One delimiter in a tag**, and no keyword behind it. -/
theorem Lexical.in_tag : ∀ {toks : List Token}, Lexical .command toks →
    (∀ tok ∈ toks, tok.kind ≠ .tagClose) → toks.countP (·.kind.isDelimiter) ≤ 1 ∧
      toks.Pairwise fun d tok => d.kind.isDelimiter = true → ∀ k, tok.kind ≠ .keyword k
  | [], _, _ => ⟨Nat.zero_le 1, .nil⟩
  | tok :: toks, ⟨hx, _, h⟩, hclose => by
    obtain ⟨htok, hclose⟩ := List.forall_mem_cons.mp hclose
    have hstep : Mode.step .command tok.kind = .command ∧ tok.kind.isDelimiter = false ∨
        Mode.step .command tok.kind = .arguments ∨ Mode.step .command tok.kind = .comment := by
      rcases hx with hk | hx
      · exact .inl (by rw [hk]; exact ⟨rfl, rfl⟩)
      · generalize tok.kind = k at hx htok
        cases k <;> first
          | exact False.elim hx
          | exact absurd rfl htok
          | exact .inl ⟨rfl, rfl⟩
          | exact .inr (.inl rfl)
          | exact .inr (.inr rfl)
    rcases hstep with ⟨hm, hd⟩ | hm
    · rw [hm] at h
      obtain ⟨hcount, hpair⟩ := h.in_tag hclose
      rw [List.countP_cons, hd]
      exact ⟨hcount, List.pairwise_cons.mpr ⟨fun _ _ h => absurd h (by simp [hd]), hpair⟩⟩
    · have hpast := h.past_delimiter hm hclose
      have hnone : toks.countP (·.kind.isDelimiter) = 0 :=
        List.countP_eq_zero.mpr fun t ht => by simp [(hpast t ht).1]
      have hpair : toks.Pairwise fun d tok =>
          d.kind.isDelimiter = true → ∀ k, tok.kind ≠ .keyword k :=
        List.pairwise_of_forall_mem_list fun _ _ t ht _ => (hpast t ht).2
      rw [List.countP_cons, hnone]
      refine ⟨by split <;> simp, List.pairwise_cons.mpr ⟨fun t ht _ => (hpast t ht).2, hpair⟩⟩

theorem Lexical.after_tagOpen {us vs : List Token} {o : Token} {m : Mode}
    (h : Lexical m (us ++ o :: vs)) (ho : o.kind = .tagOpen) : Lexical .command vs := by
  obtain ⟨m', hx, -, hvs⟩ := h.tail
  rw [ho] at hx hvs
  rwa [(hx.resolve_left (by simp)).mode_eq_content (.inr rfl)] at hvs

/-! ### The shape of a template -/

/-- **The token stream of a template has the shape of tags between literal
text.** Literal text and the text of a comment are not empty, no literal text
stands beside literal text, tags open and close in turn, the first mark being
one that opens, and behind the opening of a tag, as far as it does not close,
there is at most one delimiter and no keyword behind it. -/
theorem tokenize_shape {source : Text} {toks : List Token} (h : tokenize source = .ok toks) :
    Form.tokenStream.Derives (toks.map (·.kind)) ∧
      (∀ tok ∈ toks, tok.kind = .data ∨ tok.kind = .comment → tok.text ≠ []) ∧
      toks.IsChain (fun a b => ¬(a.kind = .data ∧ b.kind = .data)) ∧
      (∀ k ∈ ((toks.map (·.kind)).filter (·.isTagEdge)).head?, k = .tagOpen) ∧
      ((toks.map (·.kind)).filter (·.isTagEdge)).IsChain (· ≠ ·) ∧
      ∀ us o vs ws, toks = us ++ o :: (vs ++ ws) → o.kind = .tagOpen →
        (∀ tok ∈ vs, tok.kind ≠ .tagClose) → vs.countP (·.kind.isDelimiter) ≤ 1 ∧
          vs.Pairwise fun d tok => d.kind.isDelimiter = true → ∀ k, tok.kind ≠ .keyword k := by
  obtain ⟨pre, s, rfl, hne, hp, last, hn⟩ := tokenize_eq_ok_iff.mp h
  have hall := hp.append (.more hn (.none last))
  have hlexical := hall.lexical
  have hforms := (hp.lexes hne).2.remaining
  rw [map_lexeme_fst] at hforms
  obtain ⟨hfirst, halternate⟩ := hlexical.alternates
  refine ⟨by rw [List.map_append]; exact hforms, fun tok htok hk => ?_, hlexical.isChain, hfirst,
    halternate, fun us o vs ws hts ho hclose => ?_⟩
  · exact (hall.tiles (Nat.zero_le _)).2.2 tok htok (by rcases hk with hk | hk <;> simp [hk])
  · rw [hts] at hlexical
    exact (hlexical.after_tagOpen ho).front.in_tag hclose

/-- Text, a tag with blanks before its delimiter, a comment and a close tag that
the end cuts off. -/
theorem tokenize_shape_cut_off : ∃ toks, tokenize "a<?cs var !b+1?><?cs #c?><?cs /if" = .ok toks ∧
    toks.map (·.kind) =
      [.data, .tagOpen, .keyword .var, .hardDelimiter, .word, .symbol .plus, .decimal, .tagClose,
       .tagOpen, .commentStart, .comment, .tagClose, .tagOpen, .symbol .slash, .keyword .ifTag,
       .eof] ∧
    Form.tokenStream.Derives
      [.data, .tagOpen, .keyword .var, .hardDelimiter, .word, .symbol .plus, .decimal, .tagClose,
       .tagOpen, .commentStart, .comment, .tagClose, .tagOpen, .symbol .slash, .keyword .ifTag,
       .eof] := by
  obtain ⟨toks, htoks, hkinds⟩ : ∃ toks,
      tokenize "a<?cs var !b+1?><?cs #c?><?cs /if" = .ok toks ∧ toks.map (·.kind) =
        [.data, .tagOpen, .keyword .var, .hardDelimiter, .word, .symbol .plus, .decimal, .tagClose,
         .tagOpen, .commentStart, .comment, .tagClose, .tagOpen, .symbol .slash, .keyword .ifTag,
         .eof] := ⟨_, rfl, rfl⟩
  exact ⟨toks, htoks, hkinds, hkinds ▸ (tokenize_shape htoks).1⟩

end ClearSilver
