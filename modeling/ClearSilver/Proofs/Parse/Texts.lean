/-
# A parse keeps every text

The tokens of a template that parses, up to the end, record its tree
(`records_of_parse`): what the script of templates takes is a body, and a body
is recorded by its tokens. So the texts of the tree, in the order of its walk,
are what is kept of the tokens, in the order of the source.

Key theorems: `records_of_parse`, `texts_of_parse`.
-/
import ClearSilver.Proofs.Parse.Sound
import ClearSilver.Proofs.Parser.CommandKeeps

namespace ClearSilver

namespace Script

theorem template_keeps (place : Nat → Position) (budget : Nat) :
    (template place budget).Keeps (fun us c => RecordsAll place us [.command c]) True := by
  unfold template
  refine .bind (commands_keeps place budget) fun cs us hcs => .ask ?_ ?_
  · refine fun ts => .gave (List.nil_append ts).symm ?_
    rw [List.append_nil]
    exact records_ofList hcs
  · intro ts
    change Fed.Keeps _ _ _ ((look 1 fun tok => reject .commandOrEnd tok).feed ts)
    rw [feed]
    split
    · exact .unexpected _ _
    · exact .waiting

end Script

/-- **The tokens of a template that parses record its tree.** -/
theorem records_of_parse {source name : Text} {c : Command} (h : parse source name = .ok c) :
    ∃ us s, tokenize source = .ok (us ++ [Token.atEnd source.length]) ∧
      Pulls (Scanner.start source .content) us s ∧ (∀ tok ∈ us, tok.kind ≠ .eof) ∧
      RecordsAll (.of source) us [.command c] := by
  obtain ⟨us, s, last, hp, -, heof, hn, -, rest, hfed⟩ := templateRun_ok (templateRun_of_parse h)
  have hne := ne_eof_of_not_mem heof
  obtain ⟨us', hcut, hrecords⟩ :=
    (Script.template_keeps (.of source) (budgetFor source)).used hfed
  obtain rfl := List.append_cancel_right hcut
  exact ⟨us, s, tokenize_eq_ok_iff.mpr ⟨us, s, rfl, hne, hp, last, hn⟩, hp, hne, hrecords⟩

/-- **A parse keeps every text.** The texts of a tree in the order of its walk
are the literal texts, comments, words, numbers and unquoted strings among the
tokens of its source in their order. -/
theorem texts_of_parse {source name : Text} {c : Command} (h : parse source name = .ok c) :
    ∃ toks, tokenize source = .ok toks ∧ (Node.command c).texts = keptTexts toks := by
  obtain ⟨us, s, htoks, -, -, hrecords⟩ := records_of_parse h
  refine ⟨_, htoks, ?_⟩
  have hend : keptTexts [Token.atEnd source.length] = [] := rfl
  have htexts := hrecords.texts
  rw [List.flatMap_singleton] at htexts
  rw [keptTexts, List.filterMap_append, ← keptTexts, ← keptTexts, hend, List.append_nil, htexts]

/-- A macro with a body: a name of two words, a parameter, a string and a number. -/
theorem texts_of_parse_macro : ∃ c toks,
    parse "a<?cs def:m.n(x) ?><?cs var:x['k'] + 0x1F ?><?cs /def ?>" [] = .ok c ∧
      tokenize "a<?cs def:m.n(x) ?><?cs var:x['k'] + 0x1F ?><?cs /def ?>" = .ok toks ∧
      (Node.command c).texts = keptTexts toks ∧
      (Node.command c).texts = (["a", "m", "n", "x", "x", "k", "0x1F"] : List Text) := by
  obtain ⟨c, h, hkept⟩ := exists_ok_of_toOption (f := fun c => (Node.command c).texts)
    (r := parse "a<?cs def:m.n(x) ?><?cs var:x['k'] + 0x1F ?><?cs /def ?>" [])
    (b := (["a", "m", "n", "x", "x", "k", "0x1F"] : List Text)) (by decide +kernel)
  obtain ⟨toks, htoks, htexts⟩ := texts_of_parse h
  exact ⟨c, toks, h, htoks, htexts, hkept⟩

end ClearSilver
