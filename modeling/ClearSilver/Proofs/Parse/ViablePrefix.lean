/-
# What stands before an error can be completed

Where a parse stops at a token or a character, the tokens before it lead to a
body. So kinds of tokens are known that complete them, and a text is known in
which they stand behind the text that was read: it is read as before, and what
follows as the tokens that complete it.

Key theorems: `Lexes.complete`, `exists_parse_of_leads`, `exists_completion`.
-/
import ClearSilver.Proofs.Grammar.Spelling
import ClearSilver.Proofs.Parse.Grammar

namespace ClearSilver

/-- What the scanner passes over can stand before what can come next. -/
theorem Stage.Admits.skip {st : Stage} {b r : Text} (h : st.Admits r) (hb : st.mode.Skips b)
    (hbegun : st = .begun → b = []) : st.Admits (b ++ r) := by
  cases st with
  | arguments =>
    cases b with
    | nil => exact h
    | cons c b =>
      have hc := hb.1
      rw [List.all_cons, Bool.and_eq_true] at hc
      exact ⟨c, b ++ r, rfl, hc.1⟩
  | begun => rw [hbegun rfl]; exact h
  | _ => rw [hb.2 (by simp [mode])]; exact h

/-- **A text is completed** behind its lexemes, and the blanks behind them may
stay. -/
theorem Lexes.complete {mode : Mode} {source b r : Text} {ls : List Lexeme} {st : Stage}
    {more : List Token.Kind} (h : Lexes .content source ls mode (b ++ r)) (hb : mode.Skips b)
    (hst : Stage.content.run (ls.map Prod.fst) = some st) (hplain : ∀ k ∈ more, k.isPlain = true)
    (hmore : st.run more = some .content) :
    ∃ p w ls', source = p ++ (b ++ r) ∧ Lexes .content (p ++ (b ++ w)) (ls ++ ls') .content [] ∧
      ls'.map Prod.fst = more := by
  change Lexes Stage.content.mode source _ _ _ at h
  obtain rfl := Stage.mode_of_run h hst
  obtain ⟨w, ls', hw, hlw, rfl⟩ := Stage.lexes_of_run hplain hmore
  -- a delimiter takes the blanks behind it
  have hbegun : st = .begun → b = [] := by
    rintro rfl
    cases ls with
    | nil => cases hst
    | cons l ls => exact Text.eq_nil_of_stops hb.1 (Stage.stops_of_lastEnds hst h.lastEnds)
  have hnil : ls' = [] → b = [] := by
    rintro rfl
    cases hmore
    exact hb.2 (by simp [Stage.mode])
  obtain ⟨p, hsplit, hsplice⟩ := h.splice (Stage.lastEnds_of_admits hst (hw.skip hb hbegun))
  exact ⟨p, w, ls', hsplit, hsplice.append (hlw.skip hb hnil), rfl⟩

/-- What was read and leads to a body goes on in a template that parses. -/
theorem exists_parse_of_leads {source b r : Text} {toks : List Token} {s : Scanner}
    (hp : Pulls (Scanner.start source .content) toks s) (hl : (Form.phrase .commands).Leads toks)
    (hrest : s.rest = b ++ r) (hb : s.mode.Skips b) (name : Text) :
    ∃ more c, parse (source.take s.pos ++ b ++ more) name = .ok c := by
  obtain ⟨hsource, hlex⟩ := hp.lexes (ne_eof_of_not_mem hl.eof_not_mem)
  rw [hrest] at hlex
  obtain ⟨more, hplain, hd⟩ := hl
  have hrun := hd.run_commands
  rw [Stage.run_append] at hrun
  obtain ⟨st, hst, hmore⟩ := Option.bind_eq_some_iff.mp hrun
  rw [← map_lexeme_fst] at hst
  obtain ⟨p, w, ls, hsplit, hall, rfl⟩ := hlex.complete hb hst hplain hmore
  have htake : source.take s.pos = p := by
    have h : source.take s.pos ++ (b ++ r) = source := by
      rw [← hrest, Scanner.rest, hsource]
      exact List.take_append_drop _ _
    exact List.append_cancel_right (h.trans hsplit)
  obtain ⟨us, pos, hus, hlexemes, hend⟩ := hall.pulls _ 0 (List.drop_zero ..)
  have hmatches : (Form.phrase .commands).Matches us := by
    rw [Form.Matches, ← map_lexeme_fst, hlexemes, List.map_append, map_lexeme_fst]
    exact hd
  obtain ⟨c, hc⟩ := parse_of_matches hus hmatches (Scanner.next_of_rest_nil hend) name
  exact ⟨w, c, by rw [htake, List.append_assoc]; exact hc⟩

/-- **What stands before an error can be completed.** Where a template stops at
a character that begins no token or at a token that is not expected, the text
before it goes on in some template that parses. -/
theorem exists_completion {source name : Text} {e : ParseError}
    (h : parse source name = .error e)
    (he : (∃ f, e.cause = .lexical f) ∨ ∃ expected found, e.cause = .unexpected expected found) :
    ∃ more c, parse (source.take e.offset ++ more) name = .ok c := by
  obtain ⟨fault, hfault, rfl⟩ := templateRun_of_parse_error h
  obtain ⟨toks, s, b, r, hp, hl, -, hrest, hb, htake⟩ := templateRun_error hfault he
  obtain ⟨more, c, hc⟩ := exists_parse_of_leads hp hl hrest hb name
  refine ⟨more, c, ?_⟩
  rw [Fault.located, htake]
  exact hc

/-- An operand that is missing: a token stands where it has to come. -/
theorem exists_completion_operand :
    parse "<?cs var:a + ?>" [] =
        .error ⟨.unexpected .expression ⟨.tagClose, "?>", 13⟩, 13, 1, 14, []⟩ ∧
      ∃ more c, parse (List.take 13 "<?cs var:a + ?>".toList ++ more) [] = .ok c := by
  have h : parse "<?cs var:a + ?>" [] =
      .error ⟨.unexpected .expression ⟨.tagClose, "?>", 13⟩, 13, 1, 14, []⟩ :=
    eq_error_of_failure? (by decide +kernel)
  have hcomplete := exists_completion h (.inr ⟨_, _, rfl⟩)
  exact ⟨h, hcomplete⟩

end ClearSilver
