/-
# A source parses if its tokens are a sentence

A template is a body with the end behind it (`isTemplate_iff`). What parses has
such tokens, and where the tokens are such, the script of templates takes them:
the source has fewer tokens than the budget.

Key theorems: `parse_of_feed`, `parse_of_siblings`, `parse_of_matches`, `exists_parse_iff`.
-/
import ClearSilver.Proofs.Parse.Sound
import ClearSilver.Proofs.Parser.CommandTakes

namespace ClearSilver

/-- A sentence is a body with the end behind it. -/
theorem isTemplate_iff {ts : List Token} : IsTemplate (ts.map (·.kind)) ↔
    ∃ us last, ts = us ++ [last] ∧ (Form.phrase .commands).Matches us ∧ last.kind = .eof := by
  refine Form.matches_phrase.trans (Form.matches_both.trans ?_)
  constructor
  · rintro ⟨us, vs, rfl, hus, hvs⟩
    obtain ⟨last, hlast, rfl⟩ := Form.matches_token.mp hvs
    exact ⟨us, last, rfl, hus, hlast⟩
  · rintro ⟨us, last, rfl, hus, hlast⟩
    exact ⟨us, [last], rfl, hus, Form.matches_token.mpr ⟨last, hlast, rfl⟩⟩

/-- What the script of bodies says of the tokens of a source, the parser does. -/
theorem parse_of_feed {source : Text} {us : List Token} {s last : Scanner}
    {o : Except Fault Command} (hp : Pulls (Scanner.start source .content) us s)
    (hn : s.next = (.ok (Token.atEnd source.length), last))
    (h : (((Script.siblings (.among (lineStarts source)) (budgetFor source)).feed
      (us ++ [Token.atEnd source.length])).andThen Script.templateEnd).outcome? = some o)
    (name : Text) : parse source name = o.mapError (·.located source name) := by
  rw [← Script.feed_template] at h
  have hrun := Script.run_outcome (l := .start (Scanner.start source .content))
    (hp.append (.more hn (.none last))) h
  rw [parse, templateRun, hrun]

/-- A source whose tokens are taken as a body up to the end is parsed as that
body. -/
theorem parse_of_siblings {source : Text} {us : List Token} {s last : Scanner} {cs : List Command}
    (hp : Pulls (Scanner.start source .content) us s)
    (hn : s.next = (.ok (Token.atEnd source.length), last))
    (h : (Script.siblings (.among (lineStarts source)) (budgetFor source)).Takes us cs BodyEnds)
    (name : Text) : parse source name = .ok (.ofList cs) := by
  have hfeed := h [Token.atEnd source.length] (.inl ⟨_, [], rfl, rfl⟩)
  have hgave : (((Script.siblings (.among (lineStarts source)) (budgetFor source)).feed
      (us ++ [Token.atEnd source.length])).andThen Script.templateEnd).outcome? =
        some (.ok (.ofList cs)) := by
    rw [hfeed]
    rfl
  rw [parse_of_feed hp hn hgave]
  rfl

/-- A source parses whose tokens are a body with the end behind it. -/
theorem parse_of_matches {source : Text} {us : List Token} {s last : Scanner}
    (hp : Pulls (Scanner.start source .content) us s) (hus : (Form.phrase .commands).Matches us)
    (hn : s.next = (.ok (Token.atEnd source.length), last)) (name : Text) :
    ∃ c, parse source name = .ok c := by
  have heof := Stage.eof_not_mem_of_run (Form.Derives.run_commands hus) (by decide)
  have hlen := hp.length_le (ne_eof_of_not_mem heof)
  obtain ⟨cs, hcs⟩ := Script.siblings_takes (.among (lineStarts source)) (budgetFor source) us hus
    (by rw [budgetFor]; omega)
  exact ⟨.ofList cs, parse_of_siblings hp hn hcs name⟩

/-- **The parser accepts the grammar.** A source parses if and only if it has
tokens whose kinds are a sentence. -/
theorem exists_parse_iff (source name : Text) : (∃ c, parse source name = .ok c) ↔
    ∃ toks, tokenize source = .ok toks ∧ IsTemplate (toks.map (·.kind)) := by
  constructor
  · rintro ⟨c, h⟩
    obtain ⟨used, s, last, hp, hused, heof, hn, -⟩ := templateRun_ok (templateRun_of_parse h)
    refine ⟨used ++ [Token.atEnd source.length], ?_, isTemplate_iff.mpr ⟨used, _, rfl, hused, rfl⟩⟩
    exact tokenize_eq_ok_iff.mpr ⟨used, s, rfl, ne_eof_of_not_mem heof, hp, last, hn⟩
  · rintro ⟨toks, htoks, h⟩
    obtain ⟨pre, s, rfl, -, hp, last, hn⟩ := tokenize_eq_ok_iff.mp htoks
    obtain ⟨us, tok, hts, hus, -⟩ := isTemplate_iff.mp h
    obtain ⟨rfl, -⟩ := List.append_inj' hts rfl
    exact parse_of_matches hp hus hn name

end ClearSilver
