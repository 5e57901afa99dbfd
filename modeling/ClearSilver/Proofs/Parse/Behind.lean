/-
# Parsing behind another text

A body that was read behind another text is the same body with its positions
moved, and a fault is the same fault further on: tokens and those behind
another text are alike (`likewise_behind`). What a source holds in front of
others stands in a longer source as it does alone (`likewise_front`).

Key definitions: `Fault.behind`, `ParsedBody`.
Key theorems: `likewise_behind`, `likewise_front`, `parsedBody_of_parse`.
-/
import ClearSilver.Proofs.Parse.Grammar
import ClearSilver.Proofs.Parse.Outcome
import ClearSilver.Proofs.Parser.Siblings
import ClearSilver.Proofs.Scan.Behind

namespace ClearSilver

/-! ### Tokens that are alike -/

/-- The same fault so many characters further on. -/
def Fault.behind (n : Nat) : Fault → Fault
  | lexical fault => .lexical (fault.behind n)
  | unexpected expected found => .unexpected expected (found.behind n)
  | unclosed keyword openTag => .unclosed (keyword.behind n) (openTag.behind n)
  | exhausted => .exhausted

theorem Fault.offset_behind {fault : Fault} (h : fault ≠ .exhausted) (n : Nat) :
    (fault.behind n).offset = fault.offset + n := by
  cases fault with
  | exhausted => exact absurd rfl h
  | _ => rfl

/-- Is the second token the first one so many characters further on? -/
def IsBehind (n : Nat) (t t' : Token) : Prop := t' = t.behind n

theorem forall₂_isBehind (n : Nat) : ∀ ts : List Token,
    List.Forall₂ (IsBehind n) ts (ts.map (Token.behind n))
  | [] => .nil
  | _ :: ts => .cons rfl (forall₂_isBehind n ts)

/-- A fault about tokens further on is the fault further on. -/
theorem Fault.Alike.eq_behind {n : Nat} {fault fault' : Fault}
    (h : Fault.Alike (IsBehind n) fault fault') : fault' = fault.behind n := by
  cases h with
  | @unexpected expected expected' found found' he hf =>
    obtain rfl : found' = found.behind n := hf
    cases he with
    | same => rfl
    | delimiterAfter ht =>
      rw [ht]
      rfl
    | closeOf ht =>
      rw [ht]
      rfl
  | @unclosed keyword keyword' openTag openTag' hk ho =>
    obtain rfl : keyword' = keyword.behind n := hk
    obtain rfl : openTag' = openTag.behind n := ho
    rfl

/-- **Tokens are alike behind another text**, with their positions moved. -/
theorem likewise_behind (before source : Text) : Likewise (IsBehind before.length)
    (Position.behind before) id (.among (lineStarts source))
    (.among (lineStarts (before ++ source))) where
  kinds := by
    rintro t _ rfl
    rfl
  texts := by
    rintro t _ rfl
    rfl
  places := by
    rintro t _ rfl -
    exact (Position.of_behind before source t.offset).symm

/-- Is the second token the first one, which stands in the text? -/
def StandsBefore (n : Nat) (t t' : Token) : Prop := t' = t ∧ t.offset ≤ n

/-- **The tokens of a text are alike in a longer one.** -/
theorem likewise_front (before source : Text) : Likewise (StandsBefore before.length) id id
    (.among (lineStarts before)) (.among (lineStarts (before ++ source))) where
  kinds := by
    rintro t _ ⟨rfl, -⟩
    rfl
  texts := by
    rintro t _ ⟨rfl, -⟩
    rfl
  places := by
    rintro t _ ⟨rfl, hle⟩ -
    exact (Position.of_append before source hle).symm

theorem Command.eq_of_alikeAll {cs cs' : List Command} (h : AlikeAll id id cs cs') : cs = cs' := by
  have hid : Command.relocate id = id := funext relocate_id
  rwa [AlikeAll, hid, List.map_id, List.map_id] at h

/-! ### Sources that parse -/

/-- A source whose tokens up to its end are taken as a body. -/
structure ParsedBody (source : Text) (us : List Token) (cs : List Command) : Prop where
  pulls : Pulls (Scanner.start source .content) us ⟨source, source.length, .content⟩
  body : (Form.phrase .commands).Matches us
  takes : (Script.siblings (.among (lineStarts source)) (budgetFor source)).Takes us cs BodyEnds
  tidy : Command.Tidy cs

/-- **A source that parses** is taken as the body that its tree stands for. -/
theorem parsedBody_of_parse {source name : Text} {c : Command} (h : parse source name = .ok c) :
    ∃ us cs, ParsedBody source us cs ∧ c = .ofList cs := by
  obtain ⟨us, s, last, hp, hm, heof, hn, -, rest, hfed⟩ := templateRun_ok (templateRun_of_parse h)
  have hne := ne_eof_of_not_mem heof
  obtain rfl := Scanner.at_end hp (Form.Derives.run_commands hm) hn
  have hlen := hp.length_le hne
  obtain ⟨cs, hcs⟩ := Script.siblings_takes (.among (lineStarts source)) (budgetFor source) us hm
    (by rw [budgetFor]; omega)
  refine ⟨us, cs, ⟨hp, hm, hcs, ?_⟩, ?_⟩
  · -- the siblings are tidy, as the tokens are proper
    have hreads := Script.siblings_reads (.among (lineStarts source)) (budgetFor source)
      (us ++ [Token.atEnd source.length])
    rw [hcs _ (.inl ⟨_, [], rfl, rfl⟩)] at hreads
    cases hreads with
    | gave hcut _ hP =>
      obtain rfl := List.append_cancel_right hcut
      have hl : Lexical .content (us ++ []) := by
        rw [List.append_nil]
        exact hp.lexical
      exact (hP (hl.commands hm).2.1).tidy
  · obtain ⟨tok, rest', rfl, hk⟩ := Script.template_rest hfed
    rw [Script.feed_template, hcs _ (.inl ⟨tok, rest', rfl, hk⟩), Script.feed, Script.Fed.andThen,
      Script.templateEnd, if_pos hk] at hfed
    cases hfed
    rfl

/-- Its tokens are fewer than the budget. -/
theorem ParsedBody.length_le {source : Text} {us : List Token} {cs : List Command}
    (h : ParsedBody source us cs) : us.length ≤ source.length := by
  have heof := Stage.eof_not_mem_of_run (Form.Derives.run_commands h.body) (by decide)
  exact h.pulls.length_le (ne_eof_of_not_mem heof)

end ClearSilver
