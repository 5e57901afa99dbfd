/-
# A canonical tree is read back from what is written

A canonical tree is written as a text that is read as the lexemes of the tree,
and the script of templates takes tokens with these lexemes for the tree. So
each canonical tree is the tree of a template, with the positions of that
template.

Key theorems: `exists_parse_written`.
-/
import ClearSilver.Proofs.Parse.Grammar
import ClearSilver.Proofs.Written.CommandTaken

namespace ClearSilver

/-- **A canonical tree is read back from what is written**, positions apart. -/
theorem exists_parse_written {c : Command} (h : (Node.command c).isCanonical = true) (name : Text) :
    ∃ c', parse c.written name = .ok c' ∧ c'.unplaced = c.unplaced := by
  have hc := (Command.isCanonical_iff c).mp h
  have hlex := c.lexes hc [] (.inr (.inl rfl))
  rw [List.append_nil] at hlex
  obtain ⟨toks, pos, hp, htoks, hend⟩ := hlex.pulls c.written 0 (List.drop_zero ..)
  have hlen := hlex.length_le
  rw [← htoks, List.length_map] at hlen
  obtain ⟨cs, hcs, htakes⟩ := (c.taken (.among (lineStarts c.written)) hc).body toks
    (budgetFor c.written) htoks (by rw [budgetFor]; omega)
  exact ⟨.ofList cs, parse_of_siblings hp (Scanner.next_of_rest_nil hend) htakes name, hcs⟩

/-- A branch with literal text and none after it. -/
theorem exists_parse_written_branch :
    (Node.command (.ifElse ⟨0, 0, 0⟩ (.binary .eq (.lookup (.name "a")) (.string "b"))
      (.data "c") .noop)).isCanonical = true ∧
      ∃ c', parse (Command.ifElse ⟨0, 0, 0⟩ (.binary .eq (.lookup (.name "a")) (.string "b"))
        (.data "c") .noop).written [] = .ok c' ∧
        c'.unplaced = (Command.ifElse ⟨0, 0, 0⟩ (.binary .eq (.lookup (.name "a")) (.string "b"))
          (.data "c") .noop).unplaced := by
  have h : (Node.command (.ifElse ⟨0, 0, 0⟩ (.binary .eq (.lookup (.name "a")) (.string "b"))
      (.data "c") .noop)).isCanonical = true := by decide
  exact ⟨h, exists_parse_written h []⟩

end ClearSilver
