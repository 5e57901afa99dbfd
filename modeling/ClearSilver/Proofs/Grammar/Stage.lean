/-
# The stages of a sentence

The tokens of a sentence pass through stages: outside the tags, behind the
opening of a tag, behind the slash of a close tag, behind a keyword, behind a
delimiter, among the arguments, inside a comment, at the end. A stage says
which kinds of tokens can come next and belongs to a mode of the scanner, so
that the grammar and the scanner agree on what each token is. Every form of
the grammar leads from stage to stage (`Form.stage?`), and each sentence runs
through the stages of its form (`Form.Derives.run`).

Key definitions: `Stage`, `Stage.mode`, `Stage.step`, `Stage.run`,
`Phrase.stage?`, `Form.stage?`.
Key theorems: `Stage.step_mode`, `Phrase.form_stage?`, `Form.Derives.run`.
-/
import ClearSilver.Grammar
import ClearSilver.Mode

namespace ClearSilver

/-- Where in a sentence a token stands. -/
inductive Stage
  | content
  /-- After the opening of a tag. -/
  | opened
  /-- After the slash of a close tag. -/
  | slashed
  /-- After a keyword. -/
  | named
  /-- After a delimiter, where an argument has to come. -/
  | begun
  | arguments
  /-- Inside a comment. -/
  | noted
  | finished
deriving DecidableEq

namespace Stage

/-- The mode in which the scanner reads the next token. -/
def mode : Stage → Mode
  | content | finished => .content
  | opened | slashed | named => .command
  | begun | arguments => .arguments
  | noted => .comment

/-- The stage after a token, if one of this kind can stand here. -/
def step : Stage → Token.Kind → Option Stage
  | content, .data => some content
  | content, .tagOpen => some opened
  | content, .eof => some finished
  | opened, .keyword _ => some named
  | opened, .symbol .slash => some slashed
  | opened, .commentStart => some noted
  | slashed, .keyword _ => some named
  | named, .softDelimiter | named, .hardDelimiter => some begun
  | named, .tagClose => some content
  | begun, .string | begun, .decimal | begun, .hex | begun, .word | begun, .symbol _ =>
    some arguments
  | arguments, .string | arguments, .decimal | arguments, .hex | arguments, .word
  | arguments, .symbol _ => some arguments
  | arguments, .tagClose => some content
  | noted, .comment => some noted
  | noted, .tagClose => some content
  | _, _ => none

/-- The stage after some tokens, if they can stand here. -/
def run : Stage → List Token.Kind → Option Stage
  | st, [] => some st
  | st, k :: ks => (st.step k).bind fun st' => st'.run ks

theorem run_append : ∀ (st : Stage) (ks ls : List Token.Kind),
    st.run (ks ++ ls) = (st.run ks).bind fun st' => st'.run ls
  | _, [], _ => rfl
  | st, k :: ks, ls => by
    simp only [List.cons_append, run]
    cases st.step k with
    | none => rfl
    | some st' => exact run_append st' ks ls

/-- No tag opens but in the content. -/
theorem run_before_tagOpen {st st' : Stage} {ks ls : List Token.Kind}
    (h : st.run (ks ++ .tagOpen :: ls) = some st') : st.run ks = some content := by
  rw [run_append] at h
  obtain ⟨s, hs, hrest⟩ := Option.bind_eq_some_iff.mp h
  cases s <;> first | exact hs | cases hrest

/-- The scanner changes its mode as the stages say. -/
theorem step_mode {st st' : Stage} {k : Token.Kind} (h : st.step k = some st') :
    st'.mode = st.mode.step k := by
  unfold step at h
  split at h <;> cases h <;> rfl

/-- Is at least as much possible at the second stage? -/
def within (st s : Stage) : Bool := st = s || (st = begun && s = arguments)

theorem within_refl (st : Stage) : st.within st = true := by simp [within]

theorem within_trans {a b c : Stage} (hab : a.within b = true) (hbc : b.within c = true) :
    a.within c = true := by
  simp only [within, Bool.or_eq_true, Bool.and_eq_true, decide_eq_true_eq] at hab hbc ⊢
  rcases hab with rfl | ⟨rfl, rfl⟩
  · exact hbc
  · rcases hbc with rfl | ⟨h, -⟩
    · exact .inr ⟨rfl, rfl⟩
    · cases h

/-- What can stand at a stage can stand where more is possible. -/
theorem step_within {st s st' : Stage} {k : Token.Kind} (hs : st.within s = true)
    (h : st.step k = some st') : ∃ s', s.step k = some s' ∧ st'.within s' = true := by
  simp only [within, Bool.or_eq_true, Bool.and_eq_true, decide_eq_true_eq] at hs
  rcases hs with rfl | ⟨rfl, rfl⟩
  · exact ⟨st', h, within_refl _⟩
  · cases k <;> cases h <;> exact ⟨_, rfl, rfl⟩

/-- The stage that both stages are possible at. -/
def meet (st s : Stage) : Option Stage :=
  if st.within s then some st else if s.within st then some s else none

theorem meet_within {st s m : Stage} (h : st.meet s = some m) :
    m.within st = true ∧ m.within s = true := by
  unfold meet at h
  split at h
  · cases h
    exact ⟨within_refl _, ‹_›⟩
  · split at h
    · cases h
      exact ⟨‹_›, within_refl _⟩
    · cases h

end Stage

/-! ### Forms lead from stage to stage -/

/-- The stage after a phrase. -/
def Phrase.stage? : Phrase → Stage → Option Stage
  | template, .content => some .finished
  | commands, .content | command, .content | close _, .content => some .content
  | macroName, .begun | path, .begun | name, .begun | level _, .begun | value, .begun
  | macroName, .arguments | path, .arguments | name, .arguments | level _, .arguments
  | value, .arguments => some .arguments
  | _, _ => none

/-- The stage after a form. -/
def Form.stage? : Form → Stage → Option Stage
  | empty, st => some st
  | token k, st => st.step k
  | phrase p, st => p.stage? st
  | both f g, st => (f.stage? st).bind g.stage?
  | either f g, st => (f.stage? st).bind fun s => (g.stage? st).bind s.meet
  | many f, st => (f.stage? st).bind fun s => if st.within s then some st else none

/-- The operators of a level lead on among the arguments. -/
theorem Form.stage?_symbols (ss : List Symbol) : ∀ f : Form,
    f.stage? .arguments = some .arguments →
      (anyOf f (ss.map symbol)).stage? .arguments = some .arguments := by
  induction ss with
  | nil => exact fun f hf => hf
  | cons s ss ih =>
    intro f hf
    refine ih (either f (symbol s)) ?_
    rw [stage?, hf]
    rfl

/-- The form of a phrase leads where the phrase does. -/
theorem Phrase.form_stage? {p : Phrase} {st st' : Stage} (h : p.stage? st = some st') :
    p.form.stage? st = some st' := by
  cases p with
  | level n =>
    have hst : st = .begun ∨ st = .arguments := by
      cases st <;> first | exact .inl rfl | exact .inr rfl | cases h
    cases ho : operators[n]? with
    | none =>
      simp only [form, ho, Form.stage?]
      rcases hst with rfl | rfl <;> exact h
    | some o =>
      have hs := Form.stage?_symbols o.2 (.symbol o.1) rfl
      have hmany : (Form.many (.both (.anyOf (.symbol o.1) (o.2.map .symbol))
          (.phrase (.level (n + 1))))).stage? .arguments = some .arguments := by
        simp only [Form.stage?, hs, Option.bind_some, stage?]
        rfl
      simp only [form, ho]
      rw [Form.stage?]
      rcases hst with rfl | rfl <;> (cases h; exact hmany)
  | close k =>
    cases st <;> cases h
    rfl
  | _ => cases st <;> cases h <;> rfl

/-- **A sentence runs through the stages of its form.** -/
theorem Form.Derives.run {f : Form} {ks : List Token.Kind} (h : f.Derives ks) :
    ∀ {st st' s : Stage}, f.stage? st = some st' → st.within s = true →
      ∃ s', s.run ks = some s' ∧ st'.within s' = true := by
  induction h with
  | empty =>
    intro st st' s hf hs
    cases hf
    exact ⟨s, rfl, hs⟩
  | token k =>
    intro st st' s hf hs
    obtain ⟨s', hs', hw⟩ := Stage.step_within hs hf
    exact ⟨s', by rw [Stage.run, hs']; rfl, hw⟩
  | phrase _ ih => exact fun hf hs => ih (Phrase.form_stage? hf) hs
  | both _ _ ihf ihg =>
    intro st st' s hf hs
    obtain ⟨m, hm, hg⟩ := Option.bind_eq_some_iff.mp hf
    obtain ⟨s₁, hs₁, hw₁⟩ := ihf hm hs
    obtain ⟨s₂, hs₂, hw₂⟩ := ihg hg hw₁
    exact ⟨s₂, by rw [Stage.run_append, hs₁]; exact hs₂, hw₂⟩
  | left _ ih =>
    intro st st' s hf hs
    obtain ⟨a, ha, hf⟩ := Option.bind_eq_some_iff.mp hf
    obtain ⟨b, -, hm⟩ := Option.bind_eq_some_iff.mp hf
    obtain ⟨s', hs', hw⟩ := ih ha hs
    exact ⟨s', hs', Stage.within_trans (Stage.meet_within hm).1 hw⟩
  | right _ ih =>
    intro st st' s hf hs
    obtain ⟨a, -, hf⟩ := Option.bind_eq_some_iff.mp hf
    obtain ⟨b, hb, hm⟩ := Option.bind_eq_some_iff.mp hf
    obtain ⟨s', hs', hw⟩ := ih hb hs
    exact ⟨s', hs', Stage.within_trans (Stage.meet_within hm).2 hw⟩
  | none =>
    intro st st' s hf hs
    obtain ⟨a, -, hf⟩ := Option.bind_eq_some_iff.mp hf
    split at hf
    · cases hf
      exact ⟨s, rfl, hs⟩
    · cases hf
  | more _ _ ihf ihs =>
    intro st st' s hf hs
    obtain ⟨a, ha, hw⟩ := Option.bind_eq_some_iff.mp hf
    obtain ⟨s₁, hs₁, hw₁⟩ := ihf ha hs
    split at hw
    · obtain ⟨s₂, hs₂, hw₂⟩ := ihs hf (Stage.within_trans ‹_› hw₁)
      exact ⟨s₂, by rw [Stage.run_append, hs₁]; exact hs₂, hw₂⟩
    · cases hw

/-- What stands between the tags of a template runs from the content to it. -/
theorem Form.Derives.run_commands {ks : List Token.Kind} (h : Form.Derives (.phrase .commands) ks) :
    Stage.run .content ks = some .content := by
  have hstage : (Form.phrase .commands).stage? .content = some .content := rfl
  obtain ⟨s, hs, hw⟩ := Form.Derives.run h hstage (Stage.within_refl _)
  cases s <;> first | exact hs | cases hw

/-- An expression runs from where an argument has to come to the arguments. -/
theorem Form.Derives.run_expression {ks : List Token.Kind} (h : Form.expression.Derives ks) :
    Stage.run .begun ks = some .arguments := by
  have hstage : Form.expression.stage? .begun = some .arguments := rfl
  obtain ⟨s, hs, hw⟩ := Form.Derives.run h hstage (Stage.within_refl _)
  cases s <;> first | exact hs | cases hw

/-- The end comes last. -/
theorem Stage.eof_not_mem_of_run : ∀ {ks : List Token.Kind} {st st' : Stage},
    st.run ks = some st' → st' ≠ .finished → .eof ∉ ks
  | [], _, _, _, _ => List.not_mem_nil
  | k :: ks, st, st', h, hne => by
    obtain ⟨s, hs, h⟩ := Option.bind_eq_some_iff.mp h
    have hks := eof_not_mem_of_run h hne
    intro hk
    rcases List.mem_cons.mp hk with rfl | hk
    · cases st <;> cases hs
      cases ks with
      | nil => exact hne (Option.some.inj h).symm
      | cons k ks => cases k <;> cases h
    · exact hks hk

end ClearSilver
