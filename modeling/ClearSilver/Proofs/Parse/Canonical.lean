/-
# What is parsed is canonical

The scanner cuts texts that fit their kinds, and the scripts put them together
so that each node could be written again. So every tree that a template is
parsed as is canonical.

Key theorems: `isCanonical_of_parse`.
-/
import ClearSilver.Proofs.Parse.Sound
import ClearSilver.Tree.Written

namespace ClearSilver

/-- **What is parsed is canonical.** -/
theorem isCanonical_of_parse {source name : Text} {c : Command} (h : parse source name = .ok c) :
    (Node.command c).isCanonical = true := by
  obtain ⟨used, s, last, -, -, -, -, hc, -⟩ := templateRun_ok (templateRun_of_parse h)
  exact (Command.isCanonical_iff c).mpr hc

/-- Text and a tag, as they stand beside each other. -/
theorem isCanonical_of_parse_siblings :
    ∃ c, parse "a<?cs var:b ?>" [] = .ok c ∧ c.written = "a<?cs var:b ?>" ∧
      (Node.command c).isCanonical = true := by
  obtain ⟨c, h, hwritten⟩ := exists_ok_of_toOption (f := Command.written)
    (r := parse "a<?cs var:b ?>" []) (b := "a<?cs var:b ?>") (by decide +kernel)
  exact ⟨c, h, hwritten, isCanonical_of_parse h⟩

end ClearSilver
