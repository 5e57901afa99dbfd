/-
# Formatting does not change meaning

The parser decides by the kinds of tokens and keeps the texts of some. So two
sources whose tokens are one by one of the same kinds, with the same of each
kept in a tree, are parsed alike: to the same tree but for its positions, or to
errors of the same kind at tokens that stand at the same place
(`parse_of_saysSame`). Blanks inside tags, the two spellings of a delimiter or
of `elif` and the choice of quotes are no more than that.

Key definitions: `Token.SaysSame`, `Paired`, `Fault.Kind`.
Key theorems: `Script.template_alike`, `decides_of_tokenize`, `parse_of_saysSame`.
-/
import ClearSilver.Proofs.Parse.Outcome
import ClearSilver.Proofs.Parser.CommandAlike
import ClearSilver.Proofs.Script.Sources

namespace ClearSilver

/-! ### What is compared -/

/-- Are the tokens of one kind, and does a tree keep the same of them? -/
structure Token.SaysSame (t t' : Token) : Prop where
  kind : t.kind = t'.kind
  kept : t.keptText? = t'.keptText?

/-- Do the tokens stand at one place of two lists, and say the same? -/
structure Paired (ts ts' : List Token) (t t' : Token) : Prop where
  place : ∃ i : Nat, ts[i]? = some t ∧ ts'[i]? = some t'
  same : t.SaysSame t'

/-- The kinds of faults. -/
inductive Fault.Kind
  | lexical | unexpected | unclosed | exhausted
deriving DecidableEq

def Fault.kind : Fault → Fault.Kind
  | lexical _ => .lexical
  | unexpected _ _ => .unexpected
  | unclosed _ _ => .unclosed
  | exhausted => .exhausted

/-- What tokens that say the same have in common. -/
theorem forall₂_saysSame_iff : ∀ {ts ts' : List Token}, List.Forall₂ Token.SaysSame ts ts' ↔
    ts.map (fun t => (t.kind, t.keptText?)) = ts'.map (fun t => (t.kind, t.keptText?))
  | [], [] => by simp
  | [], _ :: _ | _ :: _, [] => by simp
  | t :: ts, t' :: ts' => by
    have hsame : t.SaysSame t' ↔ (t.kind, t.keptText?) = (t'.kind, t'.keptText?) := by
      rw [Prod.mk.injEq]
      exact ⟨fun h => ⟨h.kind, h.kept⟩, fun h => ⟨h.1, h.2⟩⟩
    rw [List.forall₂_cons, List.map_cons, List.map_cons, List.cons.injEq, hsame,
      forall₂_saysSame_iff]

theorem forall₂_paired {ts ts' : List Token} (h : List.Forall₂ Token.SaysSame ts ts') :
    List.Forall₂ (Paired ts ts') ts ts' := by
  rw [List.forall₂_iff_get] at h ⊢
  obtain ⟨hlen, hsame⟩ := h
  refine ⟨hlen, fun i hi hi' => ⟨⟨i, ?_, ?_⟩, hsame i hi hi'⟩⟩
  · exact List.getElem?_eq_getElem hi
  · exact List.getElem?_eq_getElem hi'

/-- Paired tokens are alike, whatever their places, once positions are forgotten. -/
theorem likewise_paired (ts ts' : List Token) (place place' : Nat → Position) :
    Likewise (Paired ts ts') (fun _ => ⟨0, 0, 0⟩) (fun _ => ⟨0, 0, 0⟩) place place' where
  kinds := fun _ _ h => h.same.kind
  texts := fun _ _ h => h.same.kept
  places := fun _ _ _ _ => rfl

/-! ### Templates -/

/-- Templates are alike on tokens of which a tree keeps the same. -/
theorem Script.template_alike {R : Token → Token → Prop} {f g : Position → Position}
    {place place' : Nat → Position} (hR : Likewise R f g place place') {budget budget' : Nat}
    (hle : budget ≤ budget') :
    Alike R (Command.Alike f g) (template place budget) (template place' budget') := by
  have hcommands : AlikeBodies R f g (commands place budget) (commands place' budget') := by
    intro ts ts' hts
    rw [commands, commands, feed_marked, feed_marked]
    exact siblings_alike hR hle ts ts' hts
  refine .bind hcommands fun cs cs' hcs => .ask hR.kinds fun b => ?_
  cases b with
  | true => exact .note (.done (.ofList hcs))
  | false => exact .peek (fun t t' ht => .reject (.same _) ht) 1

/-- The tokens of a source decide how its parse ends, and none is missing. -/
theorem decides_of_tokenize {source : Text} {toks : List Token} (h : tokenize source = .ok toks) :
    ∃ s, Decides source toks s ∧ (templateScript source).feed toks ≠ .waiting := by
  obtain ⟨us, s, rfl, hne, hp, last, hn⟩ := tokenize_eq_ok_iff.mp h
  have hdecides : Decides source (us ++ [Token.atEnd source.length]) last := .of_end hp hne hn
  refine ⟨last, hdecides, fun hwaits => ?_⟩
  -- the end is given again
  obtain ⟨fault, hfault⟩ := hdecides.waits hwaits
  rw [Scanner.next_end hn rfl] at hfault
  cases hfault

/-! ### Sources that say the same -/

/-- Faults that are alike are of one kind, at tokens at one place. -/
theorem Fault.Alike.kind_eq {ts ts' : List Token} {fault fault' : Fault}
    (h : Fault.Alike (Paired ts ts') fault fault') : fault.kind = fault'.kind ∧
      ∃ (i : Nat) (t t' : Token), ts[i]? = some t ∧ ts'[i]? = some t' ∧
        fault.offset = t.offset ∧ fault'.offset = t'.offset := by
  cases h with
  | unexpected _ hfound =>
    obtain ⟨i, ht, ht'⟩ := hfound.place
    exact ⟨rfl, i, _, _, ht, ht', rfl, rfl⟩
  | unclosed _ hopen =>
    obtain ⟨i, ht, ht'⟩ := hopen.place
    exact ⟨rfl, i, _, _, ht, ht', rfl, rfl⟩

/-- How the runs of two sources end together. -/
inductive RunTogether (s s' : Text) (ts ts' : List Token) : Prop
  | trees {c c' : Command} (hc : (templateRun s).outcome = .ok c)
      (hc' : (templateRun s').outcome = .ok c') (hsame : c.unplaced = c'.unplaced) :
      RunTogether s s' ts ts'
  | faults {fault fault' : Fault} (hf : (templateRun s).outcome = .error fault)
      (hf' : (templateRun s').outcome = .error fault') (hkind : fault.kind = fault'.kind)
      (hplace : ∃ (i : Nat) (t t' : Token), ts[i]? = some t ∧ ts'[i]? = some t' ∧
        fault.offset = t.offset ∧ fault'.offset = t'.offset) : RunTogether s s' ts ts'

variable {s s' : Text} {ts ts' : List Token}

theorem RunTogether.symm (h : RunTogether s s' ts ts') : RunTogether s' s ts' ts := by
  cases h with
  | trees hc hc' hsame => exact .trees hc' hc hsame.symm
  | faults hf hf' hkind hplace =>
    obtain ⟨i, t, t', ht, ht', ho, ho'⟩ := hplace
    exact .faults hf' hf hkind.symm ⟨i, t', t, ht', ht, ho', ho⟩

/-- The runs end together where the second budget is not the smaller one. -/
theorem runTogether_of_le (h : tokenize s = .ok ts) (h' : tokenize s' = .ok ts')
    (hts : List.Forall₂ Token.SaysSame ts ts') (hle : s.length ≤ s'.length) :
    RunTogether s s' ts ts' := by
  obtain ⟨last, hdecides, hwaits⟩ := decides_of_tokenize h
  obtain ⟨last', hdecides', -⟩ := decides_of_tokenize h'
  have hbudget : budgetFor s ≤ budgetFor s' := Nat.add_le_add_right hle 2
  have hpaired := forall₂_paired hts
  have halike := Script.template_alike (likewise_paired ts ts' (.among (lineStarts s))
    (.among (lineStarts s'))) hbudget ts ts' hpaired
  have hends : Script.OutcomesAlike (Paired ts ts') (Command.Alike _ _) (fun _ _ => False)
      (templateRun s).outcome (templateRun s').outcome :=
    halike.run hdecides.pulls hdecides'.pulls hdecides.lasts fun hw => absurd hw hwaits
  generalize ho : (templateRun s).outcome = o at hends
  generalize ho' : (templateRun s').outcome = o' at hends
  cases hends with
  | gave hsame => exact .trees ho ho' hsame
  | failed hf =>
    obtain ⟨hkind, hplace⟩ := hf.kind_eq
    exact .faults ho ho' hkind hplace
  | stopped hF => exact hF.elim

theorem runTogether_of_saysSame (h : tokenize s = .ok ts) (h' : tokenize s' = .ok ts')
    (hts : List.Forall₂ Token.SaysSame ts ts') : RunTogether s s' ts ts' := by
  by_cases hle : s.length ≤ s'.length
  · exact runTogether_of_le h h' hts hle
  · have hts' : List.Forall₂ Token.SaysSame ts' ts :=
      forall₂_saysSame_iff.mpr (forall₂_saysSame_iff.mp hts).symm
    have hle' : s'.length ≤ s.length := Nat.le_of_not_le hle
    exact (runTogether_of_le h' h hts' hle').symm

/-- **Formatting does not change meaning.** Two sources whose tokens are one by
one of the same kinds, with the same of each kept in a tree, have the same tree
but for its positions, or they fail with the same kind of error at tokens that
stand at the same place. -/
theorem parse_of_saysSame (h : tokenize s = .ok ts) (h' : tokenize s' = .ok ts')
    (hts : List.Forall₂ Token.SaysSame ts ts') (name name' : Text) :
    (∃ c c', parse s name = .ok c ∧ parse s' name' = .ok c' ∧ c.unplaced = c'.unplaced) ∨
    ∃ e e', parse s name = .error e ∧ parse s' name' = .error e' ∧
      e.cause.kind = e'.cause.kind ∧
      ∃ (i : Nat) (t t' : Token), ts[i]? = some t ∧ ts'[i]? = some t' ∧
        e.offset = t.offset ∧ e'.offset = t'.offset := by
  cases runTogether_of_saysSame h h' hts with
  | @trees c c' hc hc' hsame =>
    refine .inl ⟨c, c', ?_, ?_, hsame⟩
    · rw [parse, hc]
      rfl
    · rw [parse, hc']
      rfl
  | @faults fault fault' hf hf' hkind hplace =>
    refine .inr ⟨fault.located s name, fault'.located s' name', ?_, ?_, hkind, hplace⟩
    · rw [parse, hf]
      rfl
    · rw [parse, hf']
      rfl

/-- Branches with other blanks, delimiters and quotes and the other spelling of
`elif`, and an operand that is missing from both of two tags. -/
theorem parse_of_saysSame_spelling :
    (∃ ts ts' c c', tokenize "<?cs if:a ?>x<?cs elif:b == 'c' ?>y<?cs /if ?>" = .ok ts ∧
      tokenize "<?cs  if a?>x<?cs elseif  b==\"c\"?>y<?cs /if?>" = .ok ts' ∧
      List.Forall₂ Token.SaysSame ts ts' ∧
      parse "<?cs if:a ?>x<?cs elif:b == 'c' ?>y<?cs /if ?>" [] = .ok c ∧
      parse "<?cs  if a?>x<?cs elseif  b==\"c\"?>y<?cs /if?>" [] = .ok c' ∧
      c.unplaced = c'.unplaced) ∧
    ∃ e e', parse "<?cs var:a + ?>" [] = .error e ∧ parse "<?cs var a+?>" [] = .error e' ∧
      e.cause.kind = e'.cause.kind ∧ e.offset = 13 ∧ e'.offset = 11 := by
  constructor
  · obtain ⟨ts', hts', hsame⟩ := exists_ok_of_toOption
      (f := List.map fun t : Token => (t.kind, t.keptText?))
      (r := tokenize "<?cs  if a?>x<?cs elseif  b==\"c\"?>y<?cs /if?>")
      (b := ((tokenize "<?cs if:a ?>x<?cs elif:b == 'c' ?>y<?cs /if ?>").toOption.getD []).map
        fun t => (t.kind, t.keptText?)) (by decide +kernel)
    obtain ⟨ts, hts, -⟩ := exists_ok_of_toOption (f := fun _ => ())
      (r := tokenize "<?cs if:a ?>x<?cs elif:b == 'c' ?>y<?cs /if ?>") (b := ()) (by decide +kernel)
    obtain ⟨c, hc, -⟩ := exists_ok_of_toOption (f := fun _ => ())
      (r := parse "<?cs if:a ?>x<?cs elif:b == 'c' ?>y<?cs /if ?>" []) (b := ())
      (by decide +kernel)
    rw [hts] at hsame
    have hall := forall₂_saysSame_iff.mpr hsame.symm
    rcases parse_of_saysSame hts hts' hall [] [] with ⟨d, c', hd, hc', hequal⟩ | ⟨e, -, he, -⟩
    · exact ⟨ts, ts', d, c', hts, hts', hall, hd, hc', hequal⟩
    · rw [hc] at he
      cases he
  · obtain ⟨ts', hts', hsame⟩ := exists_ok_of_toOption
      (f := List.map fun t : Token => (t.kind, t.keptText?)) (r := tokenize "<?cs var a+?>")
      (b := ((tokenize "<?cs var:a + ?>").toOption.getD []).map
        fun t => (t.kind, t.keptText?)) (by decide +kernel)
    obtain ⟨ts, hts, -⟩ := exists_ok_of_toOption (f := fun _ => ())
      (r := tokenize "<?cs var:a + ?>") (b := ()) (by decide +kernel)
    rw [hts] at hsame
    have hall := forall₂_saysSame_iff.mpr hsame.symm
    have hstops : parse "<?cs var:a + ?>" [] =
        .error ⟨.unexpected .expression ⟨.tagClose, "?>", 13⟩, 13, 1, 14, []⟩ :=
      eq_error_of_failure? (by decide +kernel)
    have hstops' : parse "<?cs var a+?>" [] =
        .error ⟨.unexpected .expression ⟨.tagClose, "?>", 11⟩, 11, 1, 12, []⟩ :=
      eq_error_of_failure? (by decide +kernel)
    rcases parse_of_saysSame hts hts' hall [] [] with ⟨c, -, hc, -⟩ |
      ⟨e, e', he, he', hkind, -⟩
    · rw [hstops] at hc
      cases hc
    · obtain rfl := Except.error.inj (he.symm.trans hstops)
      obtain rfl := Except.error.inj (he'.symm.trans hstops')
      exact ⟨_, _, he, he', hkind, rfl, rfl⟩

end ClearSilver
