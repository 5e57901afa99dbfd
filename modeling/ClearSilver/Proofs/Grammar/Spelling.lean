/-
# Writing what completes a sentence

A text can come next at a stage of a sentence if the last token, whichever it
was, ends there and nothing of the text is taken for something else
(`Stage.Admits`). Plain tokens that run from a stage to the content can be
written as such a text (`Stage.lexes_of_run`): each kind has a sample, and
among the arguments a blank stands before it.

Key definitions: `Stage.Admits`, `Token.Kind.sample`, `Stage.gap`.
Key theorems: `Stage.lastEnds_of_admits`, `Stage.admits_sample`,
`Stage.lexes_of_run`.
-/
import ClearSilver.Proofs.Grammar.Matches
import ClearSilver.Proofs.Grammar.Stage
import ClearSilver.Proofs.Scan.Splice
import ClearSilver.Tree.Written

namespace ClearSilver

/-- A lexeme of this kind, if the kind is plain. -/
def Token.Kind.sample : Token.Kind → Text
  | .keyword k => k.text
  | .symbol s => s.text
  | .string => "\"\""
  | .decimal => "1"
  | .hex => "0x0"
  | .word => "a"
  | .tagOpen => "<?cs "
  | .tagClose => "?>"
  | .commentStart => "#"
  | .softDelimiter => ":"
  | .hardDelimiter => "!"
  | .data | .comment | .eof => []

theorem Keyword.isLexeme_text (k : Keyword) : Mode.command.IsLexeme (.keyword k) k.text := by
  cases k <;> exact ⟨⟨rfl, rfl⟩, rfl⟩

namespace Stage

variable {st st' : Stage} {k : Token.Kind} {r : Text}

/-! ### What can come next -/

/-- Can a text come next at this stage, whichever token was the last? -/
def Admits : Stage → Text → Prop
  | content, r => r = [] ∨ opensTag r = true
  | opened, r => r.Stops isBlank
  | named, r => r.Stops fun c => isWordChar c || c = '-'
  | begun, r =>
    r.Stops isBlank ∧ r.Stops (fun c => c = ':' || c = '!') ∧ closesTag r = false
  | arguments, r => ∃ c u, r = c :: u ∧ isBlank c = true
  | noted, r => r = [] ∨ closesTag r = true
  | slashed, _ | finished, _ => True

theorem not_isWordChar_of_isBlank {c : Char} (h : isBlank c = true) : isWordChar c = false := by
  simp only [isBlank, Bool.or_eq_true, decide_eq_true_eq] at h
  rcases h with ((rfl | rfl) | rfl) | rfl <;> rfl

theorem not_grows_of_isBlank {c : Char} (h : isBlank c = true) (s : Symbol) :
    s.grows c = false := by
  simp only [isBlank, Bool.or_eq_true, decide_eq_true_eq] at h
  rcases h with ((rfl | rfl) | rfl) | rfl <;> cases s <;> rfl

/-- The token before a stage ends at what can come next. -/
theorem ends_of_admits (h : st.step k = some st') (hr : st'.Admits r) (x : Text) :
    st.mode.Ends k x r := by
  have harg : arguments.Admits r → ∀ q : Char → Bool, (∀ c, isBlank c = true → q c = false) →
      r.Stops q := by
    rintro ⟨c, u, rfl, hc⟩ q hq
    exact hq c hc
  cases st <;> cases k <;> try trivial
  case content.data | content.tagOpen | noted.comment | opened.keyword | slashed.keyword |
      named.hardDelimiter =>
    cases h
    first | exact hr | exact hr.1
  case named.softDelimiter =>
    cases h
    exact ⟨hr.1, fun _ => hr.2⟩
  case begun.decimal | begun.hex | begun.word | arguments.decimal | arguments.hex |
      arguments.word =>
    cases h
    exact harg hr _ fun _ => not_isWordChar_of_isBlank
  case begun.symbol s | arguments.symbol s =>
    cases h
    exact harg hr _ fun _ hc => not_grows_of_isBlank hc s

/-- The last lexeme ends where every token does that leads to the stage reached. -/
theorem lastEnds_of_ends
    (hends : ∀ {st : Stage} {k : Token.Kind} (x : Text), st.step k = some st' → st.mode.Ends k x r) :
    ∀ {ls : List Lexeme} {st : Stage}, st.run (ls.map Prod.fst) = some st' → st.mode.LastEnds ls r
  | [], _, _ => trivial
  | [(k, x)], st, h => by
    obtain ⟨s, hs, h⟩ := Option.bind_eq_some_iff.mp h
    cases h
    exact hends x hs
  | (k, _) :: l :: ls, st, h => by
    obtain ⟨s, hs, h⟩ := Option.bind_eq_some_iff.mp h
    have ih := @lastEnds_of_ends hends (l :: ls) _ h
    rw [step_mode hs] at ih
    exact ih

/-- The last lexeme ends at what can come next. -/
theorem lastEnds_of_admits {ls : List Lexeme} (h : st.run (ls.map Prod.fst) = some st')
    (hr : st'.Admits r) : st.mode.LastEnds ls r :=
  lastEnds_of_ends (fun x hs => ends_of_admits hs hr x) h

/-- Tokens that end in the content end where a tag opens or nothing is left. -/
theorem lastEnds_of_run {us : List Token} (h : content.run (us.map (·.kind)) = some content)
    (hr : content.Admits r) : Mode.content.LastEnds (us.map Token.lexeme) r := by
  rw [← map_lexeme_fst] at h
  exact lastEnds_of_admits h hr

theorem of_step_begun (h : st.step k = some begun) :
    st = named ∧ (k = .softDelimiter ∨ k = .hardDelimiter) := by
  unfold step at h
  split at h <;> cases h
  · exact ⟨rfl, .inl rfl⟩
  · exact ⟨rfl, .inr rfl⟩

/-- After a delimiter the text goes on with no blank. -/
theorem stops_of_lastEnds : ∀ {l : Lexeme} {ls : List Lexeme} {st : Stage},
    st.run ((l :: ls).map Prod.fst) = some begun → st.mode.LastEnds (l :: ls) r → r.Stops isBlank
  | (k, x), [], st, h, hr => by
    obtain ⟨s, hs, h⟩ := Option.bind_eq_some_iff.mp h
    cases h
    obtain ⟨rfl, rfl | rfl⟩ := of_step_begun hs
    · exact hr.1
    · exact hr
  | (k, _), l :: ls, st, h, hr => by
    obtain ⟨s, hs, h⟩ := Option.bind_eq_some_iff.mp h
    rw [Mode.LastEnds, ← step_mode hs] at hr
    exact @stops_of_lastEnds l ls _ h hr

/-- The mode is that of the stage reached. -/
theorem mode_of_run {m' : Mode} {t' : Text} : ∀ {ls : List Lexeme} {st : Stage} {t : Text},
    Lexes st.mode t ls m' t' → st.run (ls.map Prod.fst) = some st' → m' = st'.mode
  | [], st, _, h, hrun => by
    cases h
    cases hrun
    rfl
  | (k, x) :: ls, st, _, h, hrun => by
    obtain ⟨s, hs, hrun⟩ := Option.bind_eq_some_iff.mp hrun
    cases h with
    | more _ _ _ h =>
      rw [← step_mode hs] at h
      exact mode_of_run h hrun

/-! ### Samples -/

/-- What stands before a sample. -/
def gap : Stage → Text
  | arguments => " "
  | _ => []

theorem skips_gap (st : Stage) : st.mode.Skips st.gap := by
  cases st <;> first | exact Mode.skips_nil _ | exact ⟨rfl, fun h => absurd rfl h⟩

theorem isLexeme_sample (hk : k.isPlain = true) (hne : k ≠ .eof) (h : st.step k = some st') :
    st.mode.IsLexeme k k.sample := by
  have hargument : (begun.step k = some st' ∨ k = .tagClose) →
      Mode.arguments.IsLexeme k k.sample := by
    rintro (h | rfl)
    · cases k with
      | string => exact ⟨'"', [], .inl rfl, List.not_mem_nil, rfl⟩
      | decimal | hex | word | symbol _ => rfl
      | _ => cases h
    · rfl
  cases st with
  | content =>
    cases k with
    | tagOpen => exact ⟨" ", by simp, rfl, rfl⟩
    | data => cases hk
    | eof => exact absurd rfl hne
    | _ => cases h
  | opened =>
    cases k with
    | keyword k => exact k.isLexeme_text
    | symbol s => cases s <;> first | exact ⟨rfl, rfl⟩ | cases h
    | commentStart => rfl
    | _ => cases h
  | slashed =>
    cases k with
    | keyword k => exact k.isLexeme_text
    | _ => cases h
  | named =>
    cases k with
    | softDelimiter => exact .inl ⟨[], [], rfl, rfl, rfl⟩
    | hardDelimiter => exact ⟨[], [], rfl, rfl, rfl⟩
    | tagClose => exact ⟨[], rfl, rfl⟩
    | _ => cases h
  | begun => exact hargument (.inl h)
  | arguments =>
    refine hargument ?_
    cases k <;> first | exact .inl h | exact .inr rfl
  | noted =>
    cases k with
    | comment => cases hk
    | tagClose => rfl
    | _ => cases h
  | finished => cases k <;> cases h

/-- A sample can come next with its gap before it. -/
theorem admits_sample (hk : k.isPlain = true) (hne : k ≠ .eof) (h : st.step k = some st')
    (hr : st'.Admits r) : st.Admits (st.gap ++ (k.sample ++ r)) := by
  cases st with
  | content =>
    cases k with
    | tagOpen => exact .inr rfl
    | data => cases hk
    | eof => exact absurd rfl hne
    | _ => cases h
  | opened =>
    cases k with
    | keyword k => cases k <;> rfl
    | symbol s => cases s <;> rfl
    | commentStart => rfl
    | _ => cases h
  | slashed => trivial
  | named => cases k <;> first | rfl | cases h
  | begun =>
    cases k with
    | string | decimal | hex | word => exact ⟨rfl, rfl, rfl⟩
    | symbol s =>
      cases h
      -- a `?` is followed by a blank, so that it closes no tag
      obtain ⟨c, u, rfl, hc⟩ := hr
      have hclose : closesTag ('?' :: c :: u) = false := by
        refine Bool.eq_false_iff.mpr fun h => ?_
        obtain ⟨s, hs⟩ := closesTag_eq_true.mp h
        rw [(List.cons.inj (List.cons.inj hs).2).1] at hc
        cases hc
      cases s <;> first | cases hk; done | exact ⟨rfl, rfl, rfl⟩ | exact ⟨rfl, rfl, hclose⟩
    | _ => cases h
  | arguments => exact ⟨' ', _, rfl, rfl⟩
  | noted =>
    cases k with
    | comment => cases hk
    | tagClose => exact .inr rfl
    | _ => cases h
  | finished => cases k <;> cases h

/-- **Plain kinds that lead to the content can be written** as a text that can
come next. -/
theorem lexes_of_run : ∀ {ks : List Token.Kind} {st : Stage}, (∀ k ∈ ks, k.isPlain = true) →
    st.run ks = some content → ∃ r ls, st.Admits r ∧ Lexes st.mode r ls .content [] ∧
      ls.map Prod.fst = ks
  | [], st, _, h => by
    cases h
    exact ⟨[], [], .inl rfl, .none _ _, rfl⟩
  | k :: ks, st, hplain, h => by
    obtain ⟨hk, hks⟩ := List.forall_mem_cons.mp hplain
    have hne : k ≠ .eof := fun hk => eof_not_mem_of_run h (by decide) (hk ▸ List.mem_cons_self)
    obtain ⟨s, hs, hrun⟩ := Option.bind_eq_some_iff.mp h
    obtain ⟨r, ls, hr, hl, rfl⟩ := lexes_of_run hks hrun
    rw [step_mode hs] at hl
    exact ⟨st.gap ++ (k.sample ++ r), (k, k.sample) :: ls, admits_sample hk hne hs hr,
      .more (skips_gap st) (isLexeme_sample hk hne hs) (ends_of_admits hs hr _) hl, rfl⟩

end Stage
end ClearSilver
