/-
# Positions are the tags that open

The tokens of a template record the positions of its tree: one for each tag
that is neither a close tag nor an `else` tag, in order. The offsets of tokens
increase, the text of a tag's first token opens a tag, and the line and the
column of an offset are found by counting, so each position says where its tag
stands.

Key theorems: `positionedTags_sublist`, `Pulls.opensTag`, `positions_of_parse`.
-/
import ClearSilver.Proofs.Parse.Texts
import ClearSilver.Proofs.Scan.Splice
import ClearSilver.Proofs.Scan.Tiling
import ClearSilver.Proofs.Text.Location

namespace ClearSilver

/-! ### The tags among some tokens -/

/-- The tags stand in the order of the tokens, and the last token is none. -/
theorem positionedTags_sublist : ∀ ts : List Token,
    (positionedTags ts).Sublist (ts.dropLast.map (·.offset))
  | [] => .slnil
  | [_] => .slnil
  | openTag :: keyword :: rest => by
    have ih := positionedTags_sublist (keyword :: rest)
    rw [positionedTags, List.dropLast_cons_of_ne_nil (List.cons_ne_nil _ _), List.map_cons]
    split
    · exact ih.cons_cons _
    · exact ih.cons _

theorem exists_tagOpen_of_mem : ∀ {ts : List Token} {o : Nat}, o ∈ positionedTags ts →
    ∃ tok ∈ ts.dropLast, tok.kind = .tagOpen ∧ tok.offset = o
  | [], _, h => by cases h
  | [_], _, h => by cases h
  | openTag :: keyword :: rest, o, h => by
    rw [List.dropLast_cons_of_ne_nil (List.cons_ne_nil _ _)]
    rw [positionedTags] at h
    split at h
    · rename_i hopen
      rw [Bool.and_eq_true, decide_eq_true_eq] at hopen
      rcases List.mem_cons.mp h with rfl | h
      · exact ⟨openTag, List.mem_cons_self, hopen.1, rfl⟩
      · obtain ⟨tok, htok, hkind⟩ := exists_tagOpen_of_mem h
        exact ⟨tok, List.mem_cons_of_mem _ htok, hkind⟩
    · obtain ⟨tok, htok, hkind⟩ := exists_tagOpen_of_mem h
      exact ⟨tok, List.mem_cons_of_mem _ htok, hkind⟩

/-- A tag opens where its first token stands. -/
theorem Pulls.opensTag {s s' : Scanner} {toks : List Token} (h : Pulls s toks s') :
    ∀ tok ∈ toks, tok.kind = .tagOpen → opensTag (s.source.drop tok.offset) = true := by
  induction h with
  | none s => simp
  | @more s s₁ s₂ tok toks hp _ ih =>
    cases Scanner.gives_of_next hp with
    | @lexeme b x r k ht hb hx hr =>
      refine List.forall_mem_cons.mpr ⟨fun hk => ?_, ih⟩
      obtain rfl : k = .tagOpen := hk
      have hm : s.mode = .content := hx.mode_eq_content (.inr rfl)
      have hdrop : s.source.drop (s.pos + b.length) = x ++ r := by
        rw [← List.drop_drop, ← Scanner.rest, ht, List.drop_left]
      rw [hm] at hx hr
      rw [hdrop]
      exact (Mode.opensTag_iff hx hr).mpr rfl
    | atEnd _ =>
      refine List.forall_mem_cons.mpr ⟨fun hk => ?_, ih⟩
      cases hk

/-! ### Positions -/

/-- The line and the column of a position inside a source. -/
theorem Position.of_spec {source : Text} {o : Nat} (h : o ≤ source.length) :
    (Position.of source o).offset = o ∧
      (Position.of source o).line = ((source.take o).count '\n' + 1 : Nat) ∧
      (Position.of source o).column = ((Text.lastLine (source.take o)).length + 1 : Nat) := by
  have hline : (Position.of source o).line = ((location source o).line : Int) := rfl
  have hcolumn : (Position.of source o).column = ((location source o).column : Int) := rfl
  rw [hline, hcolumn, location_line, location_column_inside h]
  exact ⟨rfl, rfl, rfl⟩

/-- **Positions are the tags that open.** The offsets of the positions of a
tree, in the order of its walk, are those of the tags that are neither close
tags nor `else` tags; they increase, a tag opens at each, and lines and columns
count what stands before. -/
theorem positions_of_parse {source name : Text} {c : Command} (h : parse source name = .ok c) :
    ∃ toks, tokenize source = .ok toks ∧
      (Node.command c).positions.map (·.offset) = (positionedTags toks).map Int.ofNat ∧
      ((Node.command c).positions.map (·.offset)).Pairwise (· < ·) ∧
      ∀ p ∈ (Node.command c).positions, ∃ o : Nat, p.offset = o ∧
        opensTag (source.drop o) = true ∧ p.line = ((source.take o).count '\n' + 1 : Nat) ∧
        p.column = ((Text.lastLine (source.take o)).length + 1 : Nat) := by
  obtain ⟨us, s, htoks, hp, hne, hrecords⟩ := records_of_parse h
  have hpositions : (Node.command c).positions =
      (positionedTags (us ++ [Token.atEnd source.length])).map (Position.of source) := by
    have hall := hrecords.positions [Token.atEnd source.length]
    have hend : positionedTags [Token.atEnd source.length] = [] := rfl
    rw [List.flatMap_singleton, hend, List.map_nil, List.append_nil] at hall
    exact hall.symm
  have hoffsets : (Node.command c).positions.map (·.offset) =
      (positionedTags (us ++ [Token.atEnd source.length])).map Int.ofNat := by
    rw [hpositions, List.map_map]
    rfl
  obtain ⟨htiles, hsource, htext⟩ := hp.tiles (Nat.zero_le _)
  refine ⟨_, htoks, hoffsets, ?_, fun p hp' => ?_⟩
  · have hincreasing := htiles.pairwise_offset fun tok htok => htext tok htok (hne tok htok)
    have hsublist := positionedTags_sublist (us ++ [Token.atEnd source.length])
    rw [List.dropLast_concat] at hsublist
    rw [hoffsets, List.pairwise_map]
    exact (hincreasing.sublist hsublist).imp fun hlt => Int.ofNat_lt.mpr hlt
  · rw [hpositions, List.mem_map] at hp'
    obtain ⟨o, ho, rfl⟩ := hp'
    obtain ⟨tok, htok, hk, rfl⟩ := exists_tagOpen_of_mem ho
    rw [List.dropLast_concat] at htok
    have hopens := hp.opensTag tok htok hk
    have hinside : tok.offset ≤ source.length := by
      refine Nat.le_of_not_lt fun hlt => ?_
      rw [Scanner.start, List.drop_eq_nil_of_le (Nat.le_of_lt hlt)] at hopens
      cases hopens
    obtain ⟨hoffset, hline, hcolumn⟩ := Position.of_spec hinside
    exact ⟨tok.offset, hoffset, hopens, hline, hcolumn⟩

/-- The tags of an `if` and of its `elif`, each at the beginning of a line. -/
theorem positions_of_parse_branches : ∃ c toks,
    parse "x\n<?cs if:a ?>b\n<?cs elif:c ?><?cs else ?>d<?cs /if ?>" [] = .ok c ∧
      tokenize "x\n<?cs if:a ?>b\n<?cs elif:c ?><?cs else ?>d<?cs /if ?>" = .ok toks ∧
      (Node.command c).positions.map (·.offset) = (positionedTags toks).map Int.ofNat ∧
      (Node.command c).positions = [⟨2, 2, 1⟩, ⟨16, 3, 1⟩] := by
  obtain ⟨c, h, hplaces⟩ := exists_ok_of_toOption (f := fun c => (Node.command c).positions)
    (r := parse "x\n<?cs if:a ?>b\n<?cs elif:c ?><?cs else ?>d<?cs /if ?>" [])
    (b := [⟨2, 2, 1⟩, ⟨16, 3, 1⟩]) (by decide +kernel)
  obtain ⟨toks, htoks, hoffsets, -, -⟩ := positions_of_parse h
  exact ⟨c, toks, h, htoks, hoffsets, hplaces⟩

end ClearSilver
