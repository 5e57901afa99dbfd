/-
# What a rendering says of parsed templates

What is parsed is canonical, so its compact rendering stands for one tree but
for the positions, and renderings can be compared in place of trees.

Key theorems: `dump_eq_iff_of_parse`.
-/
import ClearSilver.Proofs.Parse.Sound
import ClearSilver.Proofs.Tree.Dump
import ClearSilver.Tree.Lexemes

namespace ClearSilver

theorem canonical_of_parse {source name : Text} {c : Command} (h : parse source name = .ok c) :
    c.Canonical := by
  obtain ⟨used, s, last, -, -, -, -, hc, -⟩ := templateRun_ok (templateRun_of_parse h)
  exact hc

/-- **Parsed templates are rendered alike if and only if they are the same** but
for the positions in them. -/
theorem dump_eq_iff_of_parse {source name source' name' : Text} {c c' : Command}
    (h : parse source name = .ok c) (h' : parse source' name' = .ok c') :
    c.dump = c'.dump ↔ c.unplaced = c'.unplaced :=
  Command.dump_eq_iff (canonical_of_parse h) (canonical_of_parse h')

/-- Space in a tag moves what follows and leaves the rendering. -/
theorem dump_eq_iff_of_parse_spaced :
    ∃ c c', parse "<?cs alt:a ?><?cs call:b.c(0x1) ?><?cs /alt ?>" [] = .ok c ∧
      parse "<?cs  alt a ?><?cs call:b.c( 0x1 )?><?cs /alt?>" "t" = .ok c' ∧
      (Node.command c).positions ≠ (Node.command c').positions ∧
      c.dump = "alt(variable(name(a)), call(b.c, [hex(0x1)]))" ∧ c.unplaced = c'.unplaced := by
  obtain ⟨c, h, hc⟩ := exists_ok_of_toOption
    (f := fun c => (c.dump, (Node.command c).positions.map (·.offset)))
    (r := parse "<?cs alt:a ?><?cs call:b.c(0x1) ?><?cs /alt ?>" [])
    (b := ("alt(variable(name(a)), call(b.c, [hex(0x1)]))", [0, 13])) (by decide +kernel)
  obtain ⟨c', h', hc'⟩ := exists_ok_of_toOption
    (f := fun c => (c.dump, (Node.command c).positions.map (·.offset)))
    (r := parse "<?cs  alt a ?><?cs call:b.c( 0x1 )?><?cs /alt?>" "t")
    (b := ("alt(variable(name(a)), call(b.c, [hex(0x1)]))", [0, 14])) (by decide +kernel)
  obtain ⟨hdump, hoffsets⟩ := Prod.mk.inj hc
  obtain ⟨hdump', hoffsets'⟩ := Prod.mk.inj hc'
  refine ⟨c, c', h, h', fun hsame => ?_, hdump, ?_⟩
  · rw [hsame, hoffsets'] at hoffsets
    exact absurd hoffsets (by decide)
  · exact (dump_eq_iff_of_parse h h').mp (hdump.trans hdump'.symm)

end ClearSilver
