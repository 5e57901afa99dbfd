/-
# A template with a blank for the colon

A delimiter that a keyword needs may be a colon or a blank, and nothing of a
parse depends on which (`parse_blank_for_colon`): the tokens are the same but for
the text of the delimiter, which no tree keeps, and stand at the same places of
sources that are as long as each other and have the same lines.

Key definitions: `Token.SameButDelimiter`.
Key theorems: `likewise_sameButDelimiter`, `parse_blank_for_colon`.
-/
import ClearSilver.Proofs.Parse.Formatting
import ClearSilver.Proofs.Scan.Delimiter
import ClearSilver.Proofs.Text.Location

namespace ClearSilver

/-! ### Tokens that are the same but for a delimiter -/

/-- Are the tokens of one kind at one place, with one text if they are no soft
delimiters? -/
structure Token.SameButDelimiter (t t' : Token) : Prop where
  kind : t.kind = t'.kind
  offset : t.offset = t'.offset
  text : t.kind ≠ .softDelimiter → t.text = t'.text

theorem Token.SameButDelimiter.refl (t : Token) : t.SameButDelimiter t := ⟨rfl, rfl, fun _ => rfl⟩

theorem likewise_sameButDelimiter (place : Nat → Position) :
    Likewise Token.SameButDelimiter id id place place where
  kinds := fun _ _ h => h.kind
  texts := fun t t' h => by
    by_cases hk : t.kind = .softDelimiter
    · rw [Token.keptText?, Token.keptText?, ← h.kind, hk]
    · rw [Token.keptText?, Token.keptText?, ← h.kind, h.text hk]
  places := fun _ _ h _ => congrArg place h.offset

/-- Faults about them are of one kind and at one place. -/
theorem Fault.Alike.same_place {fault fault' : Fault}
    (h : Fault.Alike Token.SameButDelimiter fault fault') :
    fault.kind = fault'.kind ∧ fault.offset = fault'.offset := by
  cases h with
  | unexpected _ hf => exact ⟨rfl, hf.offset⟩
  | unclosed _ ho => exact ⟨rfl, ho.offset⟩

/-! ### The whole parse -/

/-- The runs of both templates end alike. -/
theorem templateRun_blank_for_colon {u r : Text} (hu : u.getLast?.any isBlank = false)
    (hdelimits : ∃ tok ∈ (Scanner.start (u ++ ':' :: r) .content).drain.1,
      tok.kind = .softDelimiter ∧ tok.offset = u.length)
    (hr : DelimitsAsBlank r) :
    Script.OutcomesAlike Token.SameButDelimiter (Command.Alike id id) Eq
      (templateRun (u ++ ':' :: r)).outcome (templateRun (u ++ ' ' :: r)).outcome := by
  obtain ⟨tok, htok, hk, ho⟩ := hdelimits
  obtain ⟨pre, post, last, hdecides, hne⟩ := exists_decides_around htok
  obtain ⟨tok', last', hpulls, hk', ho', hlast⟩ :=
    hdecides.pulls.blank_for_colon hne hk ho hu hr
  have hsame : tok.SameButDelimiter tok' := ⟨hk'.symm, ho'.symm, fun hne => absurd hk hne⟩
  have htoks : List.Forall₂ Token.SameButDelimiter (pre ++ tok :: post) (pre ++ tok' :: post) :=
    List.rel_append (List.forall₂_same.mpr fun t _ => .refl t)
      (.cons hsame (List.forall₂_same.mpr fun t _ => .refl t))
  have halike : ((templateScript (u ++ ':' :: r)).feed (pre ++ tok :: post)).Alike
      Token.SameButDelimiter (Command.Alike id id)
      ((templateScript (u ++ ' ' :: r)).feed (pre ++ tok' :: post)) := by
    have hbudget : budgetFor (u ++ ':' :: r) ≤ budgetFor (u ++ ' ' :: r) := by simp [budgetFor]
    rw [templateScript, templateScript, lineStarts_change u r ':' ' ' (by decide) (by decide)]
    exact Script.template_alike (likewise_sameButDelimiter _) hbudget _ _ htoks
  refine halike.run hdecides.pulls hpulls hdecides.lasts fun hwaits => ?_
  obtain ⟨fault, hn⟩ := hdecides.waits hwaits
  obtain ⟨last'', hn', -⟩ := hlast.next hn
  exact ⟨fault, fault, last, last'', rfl, hn, hn'⟩

/-- **A blank may replace the colon.** Where the scanner of a template gives a
soft delimiter that begins with a colon, no blank stands before it, and none of
`!`, `:` and `?>` stands behind it and its blanks, the template with a blank for
the colon has the same tree with the same positions, or fails with the same kind
of error at the same place. Where a `!` stands there, the blank is part of a hard
delimiter instead. -/
theorem parse_blank_for_colon {u r : Text} (hu : u.getLast?.any isBlank = false)
    (hdelimits : ∃ tok ∈ (Scanner.start (u ++ ':' :: r) .content).drain.1,
      tok.kind = .softDelimiter ∧ tok.offset = u.length) :
    (DelimitsAsBlank r → ∀ name name' : Text,
      (∃ c, parse (u ++ ':' :: r) name = .ok c ∧ parse (u ++ ' ' :: r) name' = .ok c) ∨
      ∃ e e', parse (u ++ ':' :: r) name = .error e ∧ parse (u ++ ' ' :: r) name' = .error e' ∧
        e.cause.kind = e'.cause.kind ∧ e.offset = e'.offset ∧ e.line = e'.line ∧
          e.column = e'.column) ∧
    (Text.startsWith (r.dropWhile isBlank) "!" = true →
      ∃ tok ∈ (Scanner.start (u ++ ' ' :: r) .content).drain.1,
        tok.kind = .hardDelimiter ∧ tok.offset = u.length) := by
  constructor
  · intro hr name name'
    have hlines := lineStarts_change u r ':' ' ' (by decide) (by decide)
    have hends := templateRun_blank_for_colon hu hdelimits hr
    rw [parse, parse]
    generalize (templateRun (u ++ ':' :: r)).outcome = o at hends
    generalize (templateRun (u ++ ' ' :: r)).outcome = o' at hends
    cases hends with
    | @gave c c' hsame =>
      obtain rfl : c = c' := by rwa [Command.Alike, c.relocate_id, c'.relocate_id] at hsame
      exact .inl ⟨c, rfl, rfl⟩
    | failed hf =>
      obtain ⟨hkind, hoffset⟩ := hf.same_place
      refine .inr ⟨_, _, rfl, rfl, hkind, hoffset, ?_, ?_⟩ <;>
        simp only [Fault.located, location, hlines, hoffset]
    | stopped hF =>
      subst hF
      refine .inr ⟨_, _, rfl, rfl, rfl, rfl, ?_, ?_⟩ <;>
        simp only [Fault.located, location, hlines]
  · intro hr
    obtain ⟨tok, htok, hk, ho⟩ := hdelimits
    obtain ⟨pre, post, last, hdecides, hne⟩ := exists_decides_around htok
    obtain ⟨text, hmem⟩ := hdecides.pulls.hard_for_colon hne hk ho hu hr
    exact ⟨_, hmem, rfl, rfl⟩

/-- A branch, an operand that is missing behind the delimiter, and a file that is
included with a hard delimiter. -/
theorem parse_blank_for_colon_branch :
    (∃ c, parse "<?cs if:a ?>x<?cs /if ?>" [] = .ok c ∧
      parse "<?cs if a ?>x<?cs /if ?>" [] = .ok c) ∧
    (∃ e e', parse "<?cs var:a + ?>" [] = .error e ∧ parse "<?cs var a + ?>" [] = .error e' ∧
      e.cause.kind = e'.cause.kind ∧ e.offset = 13 ∧ e'.offset = 13) ∧
    ∃ tok ∈ (Scanner.start "<?cs include !a ?>" .content).drain.1,
      tok.kind = .hardDelimiter ∧ tok.offset = 12 := by
  refine ⟨?_, ?_, ?_⟩
  · obtain ⟨c, hc, -⟩ := exists_ok_of_toOption (f := fun _ => ())
      (r := parse "<?cs if:a ?>x<?cs /if ?>" []) (b := ()) (by decide +kernel)
    have hboth := (parse_blank_for_colon (u := "<?cs if") (r := "a ?>x<?cs /if ?>") rfl
      (by decide +kernel)).1 (by decide) [] []
    rcases hboth with htrees | ⟨e, -, he, -⟩
    · exact htrees
    · cases hc.symm.trans he
  · have hstops : parse "<?cs var:a + ?>" [] =
        .error ⟨.unexpected .expression ⟨.tagClose, "?>", 13⟩, 13, 1, 14, []⟩ :=
      eq_error_of_failure? (by decide +kernel)
    have hboth := (parse_blank_for_colon (u := "<?cs var") (r := "a + ?>") rfl
      (by decide +kernel)).1 (by decide) [] []
    rcases hboth with ⟨c, hc, -⟩ | ⟨e, e', he, he', hkind, hoffset, -, -⟩
    · cases hstops.symm.trans hc
    · obtain rfl := Except.error.inj (hstops.symm.trans he)
      exact ⟨_, e', he, he', hkind, rfl, hoffset.symm⟩
  · exact (parse_blank_for_colon (u := "<?cs include") (r := "!a ?>") rfl
      (by decide +kernel)).2 rfl

end ClearSilver
