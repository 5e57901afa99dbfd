/-
# Branches behind each other and inside of each other

The branches of an `if` tag are read one after the other and fold to the right
into one command. Heads and blocks are read by their lexemes: a text that parses
alone has the same lexemes between tags (`exists_headText`, `exists_bodyText`),
and tokens with them are taken for the same tree, positions apart. So branches
with their conditions and blocks make up a template that parses to their chain
(`parse_branches`). An `elif` tag is an `else` tag with an `if` tag in it: the
block of the `else` tag is the template of the branches that are left.

Key definitions: `HeadText`, `BodyText`, `BranchText`, `branchesWritten`.
Key theorems: `exists_headText`, `exists_bodyText`, `BranchesText.of_reads`,
`parse_branches`, `parse_elif`.
-/
import ClearSilver.Proofs.Parse.EntryPoints
import ClearSilver.Proofs.Written.CommandTaken

namespace ClearSilver

open Script

variable {t name : Text} {ls ls' : List Lexeme} {k : Keyword} {e : Expr} {c : Command}

/-! ### Bodies rest on their lexemes -/

/-- Tokens with the same lexemes are alike, positions apart. -/
theorem likewise_lexeme (place place' : Nat → Position) :
    Likewise (fun t t' => t.lexeme = t'.lexeme) (fun _ => ⟨0, 0, 0⟩) (fun _ => ⟨0, 0, 0⟩)
      place place' where
  toSameKept := sameKept_lexeme
  places _ _ _ _ := rfl

/-- **A body rests on its lexemes**: tokens with the same ones are taken for the
same commands, positions apart. -/
theorem siblings_of_lexemes {place place' : Nat → Position} {budget budget' : Nat}
    {us us' : List Token} {cs : List Command} (hm : (Form.phrase .commands).Matches us)
    (h : (siblings place budget).Takes us cs BodyEnds) (hlt : us.length < budget)
    (hsame : us.map Token.lexeme = us'.map Token.lexeme) (hlt' : us'.length < budget') :
    (Command.ofList cs).BodyTaken place' us' budget' := by
  have hpair := forall₂_lexeme hsame
  have hlen : us.length = us'.length := hpair.length_eq
  rcases Nat.le_total budget budget' with hle | hle
  · obtain ⟨cs', htakes, halike⟩ := siblings_takes_alike (likewise_lexeme place place') hle hm h
      hpair (by omega) (Token.atEnd 0) rfl rfl
    exact ⟨cs', (Command.Alike.ofList halike).symm, htakes⟩
  · -- the commands for the other tokens, taken back to the first ones
    have hm' : (Form.phrase .commands).Matches us' := by
      rw [Form.Matches, ← map_lexeme_fst, ← hsame, map_lexeme_fst]
      exact hm
    obtain ⟨cs', htakes⟩ := siblings_takes place' budget' us' hm' hlt'
    obtain ⟨cs'', hback, halike⟩ := siblings_takes_alike (likewise_lexeme place' place) hle hm'
      htakes (hpair.flip.imp fun _ _ h => Eq.symm h) (by omega) (Token.atEnd 0) rfl rfl
    have hend : BodyEnds [Token.atEnd 0] := .inl ⟨_, [], rfl, rfl⟩
    obtain rfl := hback.unique h _ hend hend
    exact ⟨cs', Command.Alike.ofList halike, htakes⟩

/-! ### Heads and bodies as texts -/

/-- A tag around a text, and the lexemes that are taken for the keyword and the
expression. -/
structure HeadText (k : Keyword) (t : Text) (ls : List Lexeme) (e : Expr) : Prop where
  lexes : ∀ r, Lexes .content (headWritten k t ++ r) ls .content r
  taken : ∀ {ts : List Token} {budget : Nat}, ts.map Token.lexeme = ls → ts.length ≤ budget →
    ∃ o kw us, ts = o :: kw :: us ∧ o.kind = .tagOpen ∧ kw.kind = .keyword k ∧
      (headedTag budget kw).Takes us e anyRest

/-- A text before a tag, and the lexemes that are taken for the body, positions
apart. -/
structure BodyText (t : Text) (ls : List Lexeme) (c : Command) : Prop where
  lexes : ∀ r, opensTag r = true → Lexes .content (t ++ r) ls .content r
  taken : ∀ (place : Nat → Position) {ts : List Token} {budget : Nat},
    ts.map Token.lexeme = ls → ts.length < budget → c.BodyTaken place ts budget

/-- **An expression that parses alone** is what a tag holds. -/
theorem exists_headText (k : Keyword) (h : parseExpression t name = .ok e) :
    ∃ ls, HeadText k t ls e := by
  obtain ⟨us, r, hlexes, hr, hm, htakes⟩ := lexes_of_parseExpression h
  obtain ⟨b, hdelimited⟩ := lexes_delimited (hlexes.with_end hr (run_of_matches hm)) (by simp)
  have htag := lexes_tagOpen (k.stops_isBlank _)
    (lexes_keyword k (t := ':' :: (t ++ " ?>")) rfl hdelimited)
  rw [← headWritten_eq] at htag
  refine ⟨Lexeme.tagOpen :: Lexeme.keyword k :: (.softDelimiter, b) ::
    (us.map Token.lexeme ++ [Lexeme.tagEnd]), fun r => ?_, fun {ts budget} hts hlen => ?_⟩
  · have hends : Mode.content.LastEnds (Lexeme.tagOpen :: Lexeme.keyword k ::
        (.softDelimiter, b) :: us.map Token.lexeme ++ [Lexeme.tagEnd]) r :=
      Mode.lastEnds_append (fun m => by cases m <;> trivial) _ _
    obtain ⟨p, hp, hgoes⟩ := htag.splice hends
    rw [hp, List.append_nil]
    exact hgoes
  · obtain ⟨o, kw, delim, us', last, rfl, ho, hkw, hdelim, hus, hlast⟩ := head_of_lexemes hts
    simp only [List.length_cons, List.length_append] at hlen
    exact ⟨o, kw, _, rfl, ho, hkw,
      headedTag_takes kw hdelim (htakes.of_lexemes hm hus.symm (by omega)) hlast⟩

/-- **A template that parses alone** is what stands between tags. -/
theorem exists_bodyText (h : parse t name = .ok c) : ∃ ls, BodyText t ls c := by
  obtain ⟨us, cs, hparsed, rfl⟩ := parsedBody_of_parse h
  have hne := ne_eof_of_not_mem
    (Stage.eof_not_mem_of_run (Form.Derives.run_commands hparsed.body) (by decide))
  have hlt := hparsed.length_le
  refine ⟨us.map Token.lexeme, fun r hr => ?_, fun place {ts budget} hts hlen => ?_⟩
  · have hlexes : Lexes .content t _ .content (List.drop t.length t) := (hparsed.pulls.lexes hne).2
    obtain ⟨p, hp, hgoes⟩ := hlexes.splice
      (lastEnds_of_commands hparsed.body fun _ _ _ => .inr hr)
    rw [List.drop_length, List.append_nil] at hp
    rw [hp]
    exact hgoes
  · exact siblings_of_lexemes hparsed.body hparsed.takes (by rw [budgetFor]; omega) hts.symm hlen

/-- A text whose lexemes are taken for a body up to its end is parsed as that
body. -/
theorem exists_parse_of_lexes (hlexes : Lexes .content t ls .content [])
    (h : ∀ (place : Nat → Position) {ts : List Token} {budget : Nat}, ts.map Token.lexeme = ls →
      ts.length < budget → c.BodyTaken place ts budget) (name : Text) :
    ∃ c', parse t name = .ok c' ∧ c'.unplaced = c.unplaced := by
  obtain ⟨ts, pos, hp, hts, hend⟩ := hlexes.pulls t 0 (List.drop_zero ..)
  have hlen := hlexes.length_le
  rw [← hts, List.length_map] at hlen
  have hlt : ts.length < budgetFor t := by
    rw [budgetFor]
    omega
  obtain ⟨cs, hcs, htakes⟩ := h (.among (lineStarts t)) hts hlt
  exact ⟨.ofList cs, parse_of_siblings hp (Scanner.next_of_rest_nil hend) htakes name, hcs⟩

/-! ### Branches as texts -/

/-- A branch as it is written: its condition and its block. -/
structure BranchText where
  condition : Text
  block : Text

namespace BranchText

/-- A branch whose tag begins with the keyword. -/
def written (k : Keyword) (b : BranchText) : Text := headWritten k b.condition ++ b.block

/-- Do the condition and the block parse to those of the branch? -/
structure Reads (name : Text) (b : BranchText) (r : Branch) : Prop where
  condition : parseExpression b.condition name = .ok r.condition
  block : parse b.block name = .ok r.block

end BranchText

/-- The `else` tag with what stands behind it, if there is one. -/
def elseWritten : Option Text → Text
  | none => []
  | some t => tagWritten Keyword.elseTag.text ++ t

/-- The `elif` tags of an `if` tag with their blocks, and its `else` tag. -/
def branchesWritten (bs : List BranchText) (otherwise : Option Text) : Text :=
  bs.flatMap (BranchText.written .elseIf) ++ elseWritten otherwise

/-- Does the text behind the `else` tag parse to the command? Without the tag it
is `noop`. -/
def ElseReads (name : Text) : Option Text → Command → Prop
  | none, c => c = .noop
  | some t, c => parse t name = .ok c

/-- Are these the same branches, positions apart? -/
abbrev Branch.SaysSame : Branch → Branch → Prop :=
  Branch.Alike (fun _ => ⟨0, 0, 0⟩) (fun _ => ⟨0, 0, 0⟩)

/-- A text before a tag, and the lexemes that are taken for branches, positions
apart, the first of which has the keyword. -/
structure BranchesText (k : Keyword) (t : Text) (ls : List Lexeme) (rs : List Branch) : Prop where
  lexes : ∀ r, opensTag r = true → Lexes .content (t ++ r) ls .content r
  taken : ∀ (place : Nat → Position) {ts : List Token} {budget n : Nat},
    ts.map Token.lexeme = ls → ts.length ≤ budget → ts.length ≤ n →
      ∃ o kw us bs, ts = o :: kw :: us ∧ o.kind = .tagOpen ∧ kw.kind = .keyword k ∧
        (branches place (marked (siblings place budget)) (expression budget) n o kw).Takes us bs
          (EndsAt fun k => k = .symbol .slash ∨ k = .keyword .elseTag) ∧
        List.Forall₂ Branch.SaysSame bs rs

/-- A text before a tag, and the lexemes that are taken for what an `else` tag
holds, positions apart. -/
structure ElseText (t : Text) (ls : List Lexeme) (c : Command) : Prop where
  lexes : ∀ r, opensTag r = true → Lexes .content (t ++ r) ls .content r
  taken : ∀ (place : Nat → Position) {ts : List Token} {budget : Nat},
    ts.map Token.lexeme = ls → ts.length < budget →
      (ts = [] ∨ ∀ rest, TagAhead (· = .keyword .elseTag) (ts ++ rest)) ∧
      ∃ c', c'.unplaced = c.unplaced ∧ (elseBranch (marked (siblings place budget))).Takes ts c'
        (EndsAt (· = .symbol .slash))

theorem opensTag_elseWritten (otherwise : Option Text) {r : Text} (hr : opensTag r = true) :
    opensTag (elseWritten otherwise ++ r) = true := by
  cases otherwise with
  | none => exact hr
  | some t => rfl

section

variable {b : BranchText} {r : Branch} {hs bs : List Lexeme}

/-- The last branch. -/
theorem HeadText.last (hh : HeadText k b.condition hs r.condition)
    (hb : BodyText b.block bs r.block) : BranchesText k (b.written k) (hs ++ bs) [r] where
  lexes rest hrest := by
    rw [BranchText.written, List.append_assoc]
    exact (hh.lexes _).append (hb.lexes rest hrest)
  taken place {ts budget n} hts hlen hn := by
    obtain ⟨us, ws, rfl, hus, hws⟩ := List.map_eq_append_iff.mp hts
    rw [List.length_append] at hlen hn
    obtain ⟨o, kw, us, rfl, ho, hkw, htag⟩ := hh.taken hus (show us.length ≤ budget by omega)
    simp only [List.length_cons] at hlen hn
    obtain ⟨n, rfl⟩ : ∃ m, n = m + 1 := ⟨n - 1, by omega⟩
    obtain ⟨cs, hcs, hbody⟩ := hb.taken place hws (show ws.length < budget by omega)
    exact ⟨o, kw, us ++ ws, _, rfl, ho, hkw, branches_last htag (marked_takes hbody) n,
      .cons ⟨rfl, rfl, hcs⟩ .nil⟩

/-- A branch in front of others. -/
theorem HeadText.more {rs : List Branch} (hh : HeadText k b.condition hs r.condition)
    (hb : BodyText b.block bs r.block) (hopens : ∀ rest, opensTag (t ++ rest) = true)
    (h : BranchesText .elseIf t ls rs) :
    BranchesText k (b.written k ++ t) (hs ++ (bs ++ ls)) (r :: rs) where
  lexes rest hrest := by
    rw [BranchText.written, List.append_assoc, List.append_assoc]
    exact (hh.lexes _).append ((hb.lexes _ (hopens rest)).append (h.lexes rest hrest))
  taken place {ts budget n} hts hlen hn := by
    obtain ⟨us, vs, rfl, hus, hvs⟩ := List.map_eq_append_iff.mp hts
    obtain ⟨ws, vs, rfl, hws, hvs⟩ := List.map_eq_append_iff.mp hvs
    simp only [List.length_append] at hlen hn
    obtain ⟨o, kw, us, rfl, ho, hkw, htag⟩ := hh.taken hus (show us.length ≤ budget by omega)
    simp only [List.length_cons] at hlen hn
    obtain ⟨n, rfl⟩ : ∃ m, n = m + 1 := ⟨n - 1, by omega⟩
    obtain ⟨cs, hcs, hbody⟩ := hb.taken place hws (show ws.length < budget by omega)
    obtain ⟨o', kw', vs, bs, rfl, ho', hkw', hmore, hsame⟩ :=
      h.taken place hvs (show vs.length ≤ budget by omega) (show vs.length ≤ n by omega)
    exact ⟨o, kw, us ++ (ws ++ o' :: kw' :: vs), _, rfl, ho, hkw,
      branches_more htag (marked_takes hbody) ho' hkw' hmore, .cons ⟨rfl, rfl, hcs⟩ hsame⟩

end

/-- **Branches that parse alone** are taken for what they parse to. -/
theorem BranchesText.of_reads : ∀ {bs : List BranchText} {rs : List Branch} {b : BranchText}
    {r : Branch} (k : Keyword), b.Reads name r → List.Forall₂ (BranchText.Reads name) bs rs →
      ∃ ls, BranchesText k (b.written k ++ bs.flatMap (BranchText.written .elseIf)) ls (r :: rs)
  | [], _, b, r, k, hb, .nil => by
    obtain ⟨hs, hh⟩ := exists_headText k hb.condition
    obtain ⟨bs, hblock⟩ := exists_bodyText hb.block
    rw [List.flatMap_nil, List.append_nil]
    exact ⟨_, hh.last hblock⟩
  | _ :: _, _, b, r, k, hb, .cons hb' hbs => by
    obtain ⟨hs, hh⟩ := exists_headText k hb.condition
    obtain ⟨bs, hblock⟩ := exists_bodyText hb.block
    obtain ⟨ls, hmore⟩ := BranchesText.of_reads .elseIf hb' hbs
    rw [List.flatMap_cons]
    exact ⟨_, hh.more hblock (fun rest => by
      rw [BranchText.written, List.append_assoc, List.append_assoc]; rfl) hmore⟩

/-- What stands behind the `else` tag is taken for what it parses to. -/
theorem ElseText.of_reads : ∀ {otherwise : Option Text}, ElseReads name otherwise c →
    ∃ ls, ElseText (elseWritten otherwise) ls c
  | none, h => by
    refine ⟨[], fun r _ => .none _ r, fun place {ts budget} hts _ => ?_⟩
    obtain rfl := List.map_eq_nil_iff.mp hts
    exact ⟨.inl rfl, .noop, by rw [h], elseBranch_none⟩
  | some t, h => by
    obtain ⟨ls, ht⟩ := exists_bodyText h
    refine ⟨bareLexemes .elseTag ++ ls, fun r hr => ?_, fun place {ts budget} hts hlen => ?_⟩
    · rw [elseWritten, List.append_assoc]
      exact (lexes_bare .elseTag _).append (ht.lexes r hr)
    · obtain ⟨us, ws, rfl, hus, hws⟩ := List.map_eq_append_iff.mp hts
      obtain ⟨o, kw, last, rfl, ho, hkw, hlast⟩ := bare_of_lexemes hus
      simp only [List.length_append, List.length_cons] at hlen
      obtain ⟨cs, hcs, hbody⟩ := ht.taken place hws (show ws.length < budget by omega)
      refine ⟨.inr fun rest => ⟨o, kw, _, rfl, ho, hkw⟩, .ofList cs, hcs, ?_⟩
      exact (elseBranch_some ho hkw hlast (marked_takes hbody)).weaken fun _ h => h.bodyEnds

/-! ### Conditionals -/

/-- The tokens of branches, of an `else` tag and of the close tag are taken for
the chain of the branches, positions apart. -/
theorem BranchesText.taken_chain {t' : Text} {rs : List Branch}
    (hb : BranchesText .ifTag t ls rs) (he : ElseText t' ls' c) (place : Nat → Position)
    {ts : List Token} {budget : Nat}
    (hts : ts.map Token.lexeme = ls ++ (ls' ++ closeLexemes .ifTag)) (hlen : ts.length ≤ budget) :
    (Branch.chain rs c).TagTaken place ts budget := by
  obtain ⟨us, ws, rfl, hus, hws⟩ := List.map_eq_append_iff.mp hts
  obtain ⟨xs, ys, rfl, hxs, hys⟩ := List.map_eq_append_iff.mp hws
  simp only [List.length_append] at hlen
  obtain ⟨o, kw, us, bs, rfl, ho, hkw, hbranches, hsame⟩ :=
    hb.taken place hus (show us.length ≤ budget by omega) (show us.length ≤ budget by omega)
  simp only [List.length_cons] at hlen
  obtain ⟨hahead, c', hc', helse⟩ := he.taken place hxs (show xs.length < budget by omega)
  exact ⟨o, kw, us ++ (xs ++ ys), _, rfl, ho, by rw [hkw]; rfl,
    takes_if ho hkw hbranches helse hahead (matches_of_closeLexemes hys),
    Branch.alike_chain hsame hc'⟩

variable {b : BranchText} {r : Branch} {bs : List BranchText} {rs : List Branch}
  {otherwise : Option Text}

/-- **Branches that parse alone make up a conditional** that parses to their
chain, positions apart. -/
theorem parse_branches (hb : b.Reads name r) (hbs : List.Forall₂ (BranchText.Reads name) bs rs)
    (hc : ElseReads name otherwise c) :
    ∃ c', parse (b.written .ifTag ++ branchesWritten bs otherwise ++ closeWritten .ifTag) name =
        .ok c' ∧ c'.unplaced = (Branch.chain (r :: rs) c).unplaced := by
  obtain ⟨ls, hbranches⟩ := BranchesText.of_reads .ifTag hb hbs
  obtain ⟨ls', helse⟩ := ElseText.of_reads hc
  have hopens : opensTag (elseWritten otherwise ++ closeWritten .ifTag) = true :=
    opensTag_elseWritten otherwise rfl
  have hlexes := (hbranches.lexes _ hopens).append
    ((helse.lexes _ rfl).append (lexes_close .ifTag []))
  rw [branchesWritten, ← List.append_assoc, List.append_assoc _ (elseWritten otherwise)]
  refine exists_parse_of_lexes hlexes (fun place {ts budget} hts hlen => ?_) name
  obtain ⟨n, rfl⟩ : ∃ n, budget = n + 1 := ⟨budget - 1, by omega⟩
  have htag := hbranches.taken_chain helse place hts (Nat.le_of_lt_succ hlen)
  refine htag.bodyTaken ?_
  obtain ⟨o, kw, us, c', rfl, -⟩ := htag
  rw [List.length_cons] at hlen
  omega

/-- **An `elif` tag is an `else` tag with an `if` tag in it.** If the conditions
and the blocks of two branches parse, and those of any others behind them and
what an `else` tag holds, then the `if` tag with the second branch and the
others as its own parses, and so does the one with an `else` tag around them,
and the trees are the same, positions apart: the first condition, the first
block, and the chain of the branches that are left. -/
theorem parse_elif {b₂ : BranchText} {r₂ : Branch} (h₁ : b.Reads name r) (h₂ : b₂.Reads name r₂)
    (hbs : List.Forall₂ (BranchText.Reads name) bs rs) (hc : ElseReads name otherwise c) :
    ∃ flat nested,
      parse (b.written .ifTag ++ b₂.written .elseIf ++ branchesWritten bs otherwise ++
        closeWritten .ifTag) name = .ok flat ∧
      parse (b.written .ifTag ++ tagWritten Keyword.elseTag.text ++ b₂.written .ifTag ++
        branchesWritten bs otherwise ++ closeWritten .ifTag ++ closeWritten .ifTag) name =
          .ok nested ∧
      flat.unplaced = nested.unplaced ∧
      flat.unplaced = .ifElse ⟨0, 0, 0⟩ r.condition r.block.unplaced
        (Branch.chain (r₂ :: rs) c).unplaced := by
  obtain ⟨flat, hflat, hchain⟩ := parse_branches h₁ (.cons h₂ hbs) hc
  -- the other branches are a template of their own behind the `else` tag
  obtain ⟨inner, hinner, hrest⟩ := parse_branches h₂ hbs hc
  have helse : ElseReads name (some _) inner := hinner
  obtain ⟨nested, hnested, hchain'⟩ := parse_branches h₁ .nil helse
  refine ⟨flat, nested, ?_, ?_, ?_, hchain⟩
  · rw [← hflat, branchesWritten, branchesWritten, List.flatMap_cons]
    simp only [List.append_assoc]
  · rw [← hnested, branchesWritten.eq_def [], elseWritten, List.flatMap_nil]
    simp only [List.append_assoc, List.nil_append]
  · have hnest : (Branch.chain [r] inner).unplaced = (Branch.chain (r :: r₂ :: rs) c).unplaced :=
      congrArg (Command.ifElse ⟨0, 0, 0⟩ r.condition r.block.unplaced) hrest
    rw [hchain, hchain', hnest]

/-- Four branches: two are left behind the first `elif` tag, the last one is
the `else` tag's. -/
theorem parse_elif_four : ∃ r r₂ r₃ d flat nested,
    BranchText.Reads [] ⟨"a", "x<?cs var:b ?>"⟩ r ∧ BranchText.Reads [] ⟨"1 - -2", []⟩ r₂ ∧
    BranchText.Reads [] ⟨" !b", "y"⟩ r₃ ∧ parse "z" [] = .ok d ∧
    parse "<?cs if:a ?>x<?cs var:b ?><?cs elif:1 - -2 ?><?cs elif: !b ?>y<?cs else ?>z<?cs /if ?>"
      [] = .ok flat ∧
    parse ("<?cs if:a ?>x<?cs var:b ?><?cs else ?><?cs if:1 - -2 ?><?cs elif: !b ?>y<?cs else ?>" ++
      "z<?cs /if ?><?cs /if ?>") [] = .ok nested ∧
    flat.unplaced = nested.unplaced ∧
    flat.unplaced = .ifElse ⟨0, 0, 0⟩ r.condition r.block.unplaced
      (Branch.chain [r₂, r₃] d).unplaced := by
  have hreads : ∀ {b : BranchText},
      (parseExpression b.condition []).toOption.map (fun _ => ()) = some () →
        (parse b.block []).toOption.map (fun _ => ()) = some () → ∃ r, b.Reads [] r := by
    intro b he hb
    obtain ⟨e, he, -⟩ := exists_ok_of_toOption he
    obtain ⟨c, hc, -⟩ := exists_ok_of_toOption hb
    exact ⟨⟨⟨0, 0, 0⟩, e, c⟩, he, hc⟩
  obtain ⟨r, h⟩ := @hreads ⟨"a", "x<?cs var:b ?>"⟩ (by decide +kernel) (by decide +kernel)
  obtain ⟨r₂, h₂⟩ := @hreads ⟨"1 - -2", []⟩ (by decide +kernel) (by decide +kernel)
  obtain ⟨r₃, h₃⟩ := @hreads ⟨" !b", "y"⟩ (by decide +kernel) (by decide +kernel)
  obtain ⟨d, hd, -⟩ := exists_ok_of_toOption (f := fun _ => ()) (b := ()) (r := parse "z" [])
    (by decide +kernel)
  have helse : ElseReads [] (some "z") d := hd
  obtain ⟨flat, nested, hflat, hnested, hsame, hchain⟩ := parse_elif h h₂ (.cons h₃ .nil) helse
  exact ⟨r, r₂, r₃, d, flat, nested, h, h₂, h₃, hd, hflat, hnested, hsame, hchain⟩

end ClearSilver
