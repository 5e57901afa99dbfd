/-
# What decides a parse

The tokens of a source up to its end, or those before the character that stops
the scanner, decide how its parse ends: the script of templates, fed with
them, gives a tree or fails, or it waits for the token that is not there
(`decides_drain`). The budget is greater than their number, so it is never
spent.

Key theorems: `templateRun_of_outcome`, `templateRun_of_waiting`, `decides_drain`,
`templateRun_ne_exhausted`.
-/
import ClearSilver.Proofs.Grammar.Spelling
import ClearSilver.Proofs.Parse.Sound
import ClearSilver.Proofs.Parser.Lasts
import ClearSilver.Proofs.Scan.Tiling

namespace ClearSilver

/-- **A scanner that gives the end outside the tags** stands at the end of its
source. -/
theorem Scanner.at_end {source : Text} {us : List Token} {s last : Scanner}
    (hp : Pulls (Scanner.start source .content) us s)
    (hrun : Stage.content.run (us.map (·.kind)) = some .content)
    (hn : s.next = (.ok (Token.atEnd source.length), last)) :
    s = ⟨source, source.length, .content⟩ := by
  have hne := ne_eof_of_not_mem (Stage.eof_not_mem_of_run hrun (by decide))
  obtain ⟨hsource, hlexes⟩ := hp.lexes hne
  have hmode : s.mode = .content := by
    rw [← map_lexeme_fst] at hrun
    change Lexes Stage.content.mode _ _ _ _ at hlexes
    exact Stage.mode_of_run hlexes hrun
  obtain ⟨pulled, pos, mode⟩ := s
  obtain rfl : pulled = source := hsource
  obtain rfl : mode = .content := hmode
  have hle : pos ≤ pulled.length := ((hp.tiles (Nat.zero_le _)).1.le (Nat.zero_le _)).2
  have hrest : (⟨pulled, pos, .content⟩ : Scanner).rest = [] :=
    (Scanner.skips_of_next hn rfl).2 (by simp)
  have hpos := List.drop_eq_nil_iff.mp hrest
  rw [Nat.le_antisymm hle hpos]

/-- The script that parses a source. -/
def templateScript (source : Text) : Script Command :=
  .template (.among (lineStarts source)) (budgetFor source)

variable {source : Text} {us : List Token} {s : Scanner}

theorem templateRun_of_outcome {o : Except Fault Command}
    (hp : Pulls (Scanner.start source .content) us s)
    (h : ((templateScript source).feed us).outcome? = some o) :
    (templateRun source).outcome = o :=
  Script.run_outcome (l := .start (Scanner.start source .content)) hp h

theorem templateRun_of_waiting {s' : Scanner} {fault : LexicalFault}
    (hp : Pulls (Scanner.start source .content) us s) (hn : s.next = (.error fault, s'))
    (h : (templateScript source).feed us = .waiting) :
    (templateRun source).outcome = .error (.lexical fault) :=
  Script.run_waiting (l := .start (Scanner.start source .content)) hp hn h

/-- What the tokens up to a fault or up to the end say of a parse. -/
structure Decides (source : Text) (us : List Token) (s : Scanner) : Prop where
  pulls : Pulls (Scanner.start source .content) us s
  lasts : (templateScript source).feed us ≠ .failed .exhausted
  waits : (templateScript source).feed us = .waiting → ∃ fault, s.next = (.error fault, s)

/-- The tokens before a fault decide. -/
theorem Decides.of_fault {fault : LexicalFault} (hp : Pulls (Scanner.start source .content) us s)
    (hne : ∀ tok ∈ us, tok.kind ≠ .eof) (hn : s.next = (.error fault, s)) :
    Decides source us s where
  pulls := hp
  lasts := by
    have hle := hp.length_le hne
    exact Script.template_lasts _ _ us (by rw [budgetFor]; omega)
  waits := fun _ => ⟨fault, hn⟩

/-- The tokens up to the end decide, for no script of templates waits behind it. -/
theorem Decides.of_end {last : Scanner} (hp : Pulls (Scanner.start source .content) us s)
    (hne : ∀ tok ∈ us, tok.kind ≠ .eof) (hn : s.next = (.ok (Token.atEnd source.length), last)) :
    Decides source (us ++ [Token.atEnd source.length]) last where
  pulls := hp.append (.more hn (.none last))
  lasts := by
    have hle := hp.length_le hne
    refine Script.template_lasts _ _ _ ?_
    rw [List.length_append, List.length_singleton, budgetFor]
    omega
  waits := by
    intro hwaits
    have hl : Lexical .content (us ++ [Token.atEnd source.length]) :=
      (hp.append (.more hn (.none last))).lexical
    have hobeys := Script.template_obeys (.among (lineStarts source)) (budgetFor source) hl
    rw [templateScript] at hwaits
    rw [hwaits] at hobeys
    cases hobeys with
    | waiting hleads =>
      refine absurd ?_ hleads.eof_not_mem
      simp [Token.atEnd]

/-- **Every parse is decided** by the tokens up to a fault or up to the end. -/
theorem decides_drain (source : Text) :
    ∃ s, Decides source (Scanner.start source .content).drain.1 s := by
  obtain ⟨us, s, hne, hp, hend⟩ := (Scanner.start source .content).drain_cases
  rcases hend with ⟨last, hn, hd⟩ | ⟨fault, hn, hd⟩
  · rw [hd]
    exact ⟨last, .of_end hp hne hn⟩
  · rw [hd]
    exact ⟨s, .of_fault hp hne hn⟩

/-- The tokens around one of those that decide. -/
theorem exists_decides_around {tok : Token}
    (h : tok ∈ (Scanner.start source .content).drain.1) :
    ∃ pre post s, Decides source (pre ++ tok :: post) s ∧ ∀ t ∈ pre, t.kind ≠ .eof := by
  obtain ⟨s, hdecides⟩ := decides_drain source
  obtain ⟨pre, post, hsplit⟩ := List.append_of_mem h
  rw [hsplit] at hdecides
  exact ⟨pre, post, s, hdecides, Scanner.ne_eof_of_drain hsplit⟩

/-- The budget of a template is never spent. -/
theorem templateRun_ne_exhausted (source : Text) :
    (templateRun source).outcome ≠ .error .exhausted := by
  obtain ⟨s, hdecides⟩ := decides_drain source
  refine Script.run_ne_exhausted (l := .start (Scanner.start source .content)) hdecides.pulls
    hdecides.lasts fun hw => ?_
  obtain ⟨f, hn⟩ := hdecides.waits hw
  exact ⟨f, s, hn⟩

end ClearSilver
