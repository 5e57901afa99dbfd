/-
# An open block is repaired by its close tag

Where a template stops with a block open, its tokens leave that block and those
around it open at the end (`EndsInside`). With the close tag of the innermost
block behind it the template has the same tokens and those of the close tag,
and is inside of the other blocks (`EndsInside.close`): the close tag opens a
new tag, whatever stands before it. So the close tags that the errors name, one
after the other, lead to a template that parses (`repaired_of_unclosed`).

Key definitions: `EndsInside`, `RepairedIn`.
Key theorems: `EndsInside.close`, `EndsInside.repaired`, `endsInside_of_parse`,
`repaired_of_unclosed`.
-/
import ClearSilver.Proofs.Parse.Grammar
import ClearSilver.Proofs.Parse.Outcome
import ClearSilver.Proofs.Parser.OpenBlocks
import ClearSilver.Proofs.Scan.Tiling
import ClearSilver.Proofs.Written.CommandTaken

namespace ClearSilver

/-- Does a template parse once the close tags that its errors name stand
behind it, as many as `n`, one after the other? -/
def RepairedIn (name : Text) : (n : Nat) → (source : Text) → Prop
  | 0, source => ∃ c, parse source name = .ok c
  | n + 1, source => ∃ e keyword openTag, parse source name = .error e ∧
      e.cause = .unclosed keyword openTag ∧
      RepairedIn name n (source ++ OpenBlock.closeTag ⟨openTag, keyword⟩)

/-! ### The keyword of a block -/

/-- A keyword that opens a block has one spelling. -/
theorem Keyword.eq_text_of_opensBlock {t : Text} {k : Keyword} (h : Keyword.ofText? t = some k)
    (hopens : k.opensBlock = true) : t = k.text := by
  have hall : ∀ p ∈ Keyword.spellings, p.2.opensBlock = true → p.1 = p.2.text := by decide
  exact hall _ (Keyword.mem_spellings h) hopens

theorem Token.IsProper.keyword_text {tok : Token} {k : Keyword} (h : tok.IsProper)
    (hk : tok.kind = .keyword k) (hopens : k.opensBlock = true) : tok.text = k.text := by
  obtain ⟨mode, hx, -⟩ := h
  rw [hk] at hx
  cases mode with
  | command => exact Keyword.eq_text_of_opensBlock hx.2 hopens
  | _ => exact hx.elim

/-! ### What is left open runs to the content -/

/-- Behind a body, whatever it leaves open, comes content. -/
theorem Script.LeavesOpen.run {place : Nat → Position} {budget : Nat} :
    ∀ {blocks : List OpenBlock} {us : List Token},
      (Script.siblings place budget).LeavesOpen BodyEnds us blocks →
        Stage.content.run (us.map (·.kind)) = some .content
  | [], us, ⟨cs, h⟩ => by
    have hfeed := h [Token.atEnd 0] (.inl ⟨_, [], rfl, rfl⟩)
    have hreads := Script.siblings_reads place budget (us ++ [Token.atEnd 0])
    rw [hfeed] at hreads
    cases hreads with
    | gave hts hf _ =>
      obtain rfl := List.append_cancel_right hts
      exact Form.Derives.run_commands hf
  | b :: outer, us, ⟨_, k, _, hclose⟩ => by
    have hrun := Script.LeavesOpen.run (hclose [⟨.tagOpen, [], 0⟩, ⟨.symbol .slash, [], 0⟩,
      ⟨.keyword k, [], 0⟩, ⟨.tagClose, [], 0⟩]
      (.phrase (.both (.token _) (.both (.token _) (.both (.token _) (.token _))))))
    rw [List.map_append] at hrun
    exact Stage.run_before_tagOpen hrun

theorem Script.BodyOpen.run {us : List Token} {blocks : List OpenBlock}
    (h : Script.BodyOpen us blocks) : Stage.content.run (us.map (·.kind)) = some .content :=
  (h.leaves (fun _ => ⟨0, 0, 0⟩) (us.length + 1) (Nat.lt_succ_self _)).run

theorem Script.BodyOpen.ne_eof {us : List Token} {blocks : List OpenBlock}
    (h : Script.BodyOpen us blocks) : ∀ tok ∈ us, tok.kind ≠ .eof :=
  ne_eof_of_not_mem (Stage.eof_not_mem_of_run h.run (by decide))

/-! ### Sources that end inside of blocks -/

/-- Do the tokens of a source up to its end leave these blocks open? -/
structure EndsInside (source : Text) (us : List Token) (blocks : List OpenBlock) : Prop where
  pulls : ∃ s last, Pulls (Scanner.start source .content) us s ∧
    s.next = (.ok (Token.atEnd source.length), last)
  body : Script.BodyOpen us blocks
  spelled : ∀ b ∈ blocks, ∃ k, b.keyword.kind = .keyword k ∧ b.keyword.text = k.text

namespace EndsInside

variable {source : Text} {us : List Token} {b : OpenBlock} {outer blocks : List OpenBlock}

theorem length_lt (h : EndsInside source us blocks) : us.length < budgetFor source := by
  obtain ⟨s, last, hp, -⟩ := h.pulls
  have hle := hp.length_le h.body.ne_eof
  rw [budgetFor]
  omega

/-- No block is open, and the source parses. -/
theorem parse_ok (h : EndsInside source us []) (name : Text) : ∃ c, parse source name = .ok c := by
  obtain ⟨s, last, hp, hn⟩ := h.pulls
  obtain ⟨cs, hcs⟩ := h.body.leaves (.among (lineStarts source)) _ h.length_lt
  exact ⟨.ofList cs, parse_of_siblings hp hn hcs name⟩

/-- The innermost block is what the parser finds open. -/
theorem parse_error (h : EndsInside source us (b :: outer)) (name : Text) :
    parse source name =
      .error ((Fault.unclosed b.keyword b.openTag).located source name) := by
  obtain ⟨s, last, hp, hn⟩ := h.pulls
  have hfeed := (h.body.leaves (.among (lineStarts source)) _ h.length_lt).1
    (Token.atEnd source.length) [] rfl
  have hfailed : (((Script.siblings (.among (lineStarts source)) (budgetFor source)).feed
      (us ++ [Token.atEnd source.length])).andThen Script.templateEnd).outcome? =
        some (.error (.unclosed b.keyword b.openTag)) := by
    rw [hfeed]
    rfl
  rw [parse_of_feed hp hn hfailed]
  rfl

/-- The scanner stands at the end of the source, outside the tags. -/
theorem at_end (h : EndsInside source us blocks) : ∃ s, Pulls (Scanner.start source .content) us s ∧
    s.source = source ∧ s.mode = .content ∧ s.rest = [] := by
  obtain ⟨s, last, hp, hn⟩ := h.pulls
  obtain rfl := Scanner.at_end hp h.body.run hn
  exact ⟨_, hp, rfl, rfl, List.drop_length⟩

/-- **The close tag of the innermost block** closes it and nothing else. -/
theorem close (h : EndsInside source us (b :: outer)) :
    ∃ ts, EndsInside (source ++ b.closeTag) (us ++ ts) outer := by
  obtain ⟨s, hp, hsource, hmode, hrest⟩ := h.at_end
  obtain ⟨k, hk, htext⟩ := h.spelled b List.mem_cons_self
  have htag : b.closeTag = closeWritten k :=
    congrArg (fun t : Text => ("<?cs /" : Text) ++ t ++ " ?>") htext
  -- whatever the last token is, a tag that opens ends it
  have hlast : Mode.content.LastEnds (us.map Token.lexeme) (s.rest ++ b.closeTag) := by
    have hadmits : Stage.content.Admits (s.rest ++ b.closeTag) := by
      rw [hrest, htag]
      exact .inr rfl
    exact Stage.lastEnds_of_run h.body.run hadmits
  obtain ⟨hpulls, hle⟩ := hp.extend (Nat.zero_le _) h.body.ne_eof hlast
  have hbehind :
      (⟨source ++ b.closeTag, s.pos, .content⟩ : Scanner).rest = closeWritten k ++ [] := by
    have htext := Scanner.rest_extend hle b.closeTag
    rw [Scanner.extend, hsource, hmode, hrest, List.nil_append] at htext
    rw [htext, htag, List.append_nil]
  obtain ⟨ts, pos, hts, hlexemes, hend⟩ := (lexes_close k []).pulls _ _ hbehind
  rw [Scanner.extend, Scanner.extend, hsource, hmode] at hpulls
  exact ⟨ts, ⟨_, _, hpulls.append hts, Scanner.next_of_rest_nil hend⟩,
    h.body.close hk (matches_of_closeLexemes hlexemes),
    fun b' hb' => h.spelled b' (List.mem_cons_of_mem _ hb')⟩

/-- **The close tags of all open blocks**, the innermost first, repair a source. -/
theorem repaired (name : Text) : ∀ {blocks : List OpenBlock} {source : Text} {us : List Token},
    EndsInside source us blocks → RepairedIn name blocks.length source
  | [], _, _, h => h.parse_ok name
  | b :: outer, _, _, h => by
    obtain ⟨ts, hts⟩ := h.close
    exact ⟨_, b.keyword, b.openTag, h.parse_error name, rfl, hts.repaired name⟩

end EndsInside

/-! ### Sources with an open block -/

/-- What a template leaves open its body does. -/
theorem Script.siblings_of_template {place : Nat → Position} {budget : Nat} {ts : List Token}
    {keyword openTag : Token}
    (h : (Script.template place budget).feed ts = .failed (.unclosed keyword openTag)) :
    (Script.siblings place budget).feed ts = .failed (.unclosed keyword openTag) := by
  rw [Script.feed_template] at h
  cases hfed : (Script.siblings place budget).feed ts with
  | failed fault =>
    rw [hfed] at h
    cases h
    rfl
  | waiting =>
    rw [hfed] at h
    cases h
  | gave cs rest =>
    rw [hfed, Script.Fed.andThen] at h
    cases rest with
    | nil => cases h
    | cons tok rest =>
      rw [Script.templateEnd] at h
      split at h
      · cases h
      · cases rest <;> cases h

/-- The keywords of the blocks that some tokens of a scanner open. -/
theorem Script.BodyOpen.spelled {us vs : List Token} {blocks : List OpenBlock}
    (h : Script.BodyOpen us blocks) (hl : Lexical .content (us ++ vs)) :
    ∀ b ∈ blocks, ∃ k, b.keyword.kind = .keyword k ∧ b.keyword.text = k.text := by
  have heof := Stage.eof_not_mem_of_run h.run (by decide)
  have hproper : ∀ tok ∈ us, tok.IsProper :=
    (@Lexical.run us vs .content .content hl h.run heof).1
  intro b hb
  rw [← h.opens.openBlocks_eq] at hb
  rcases opened_of_mem us hb with hb | ⟨xs, ys, k, hus, -, hk, hopens⟩
  · cases hb
  · have hmem : b.keyword ∈ us := by simp [hus]
    exact ⟨k, hk, (hproper _ hmem).keyword_text hk hopens⟩

/-- **A source that stops with a block open** ends inside of it. -/
theorem endsInside_of_parse {source name : Text} {e : ParseError} {keyword openTag : Token}
    (h : parse source name = .error e) (hcause : e.cause = .unclosed keyword openTag) :
    e.offset = openTag.offset ∧ ∃ us outer,
      EndsInside source us (⟨openTag, keyword⟩ :: outer) := by
  obtain ⟨fault, hfault, rfl⟩ := templateRun_of_parse_error h
  obtain rfl : fault = .unclosed keyword openTag := hcause
  refine ⟨rfl, ?_⟩
  obtain ⟨toks, src, hp, hrun⟩ := Script.run_feed
    (.template (.among (lineStarts source)) (budgetFor source))
    (.start (Scanner.start source .content))
  simp only [Lookahead.start, List.nil_append] at hp hrun
  rw [templateRun, Lookahead.start] at hfault
  generalize hfed :
    (Script.template (.among (lineStarts source)) (budgetFor source)).feed toks = fed at hrun
  cases hrun with
  | gave ho _ =>
    rw [ho] at hfault
    cases hfault
  | waiting ho _ =>
    rw [ho] at hfault
    cases hfault
  | failed ho =>
    rw [ho] at hfault
    cases hfault
    have htracks := Script.siblings_tracks (.among (lineStarts source)) (budgetFor source) toks
    rw [Script.siblings_of_template hfed] at htracks
    cases htracks with
    | @unclosed us rest last _ _ blocks hts hlast hin hbody =>
      subst hts
      obtain ⟨outer, rfl⟩ := List.head?_eq_some_iff.mp hin
      have hspelled := hbody.spelled hp.lexical
      obtain ⟨s, hus, hs⟩ := hp.split
      cases hs with
      | more hnext _ =>
        obtain rfl := Scanner.next_eof hnext hlast
        rw [(hus.lexes hbody.ne_eof).1] at hnext
        exact ⟨us, outer, ⟨s, _, hus, hnext⟩, hbody, hspelled⟩

/-- **An open block is repaired by its close tag.** -/
theorem repaired_of_unclosed {source name : Text} {e : ParseError} {keyword openTag : Token}
    (h : parse source name = .error e) (hcause : e.cause = .unclosed keyword openTag) :
    ∃ toks, tokenize source = .ok toks ∧
      (∃ us vs k, toks = us ++ openTag :: keyword :: vs ∧ openTag.kind = .tagOpen ∧
        openTag.offset = e.offset ∧ keyword.kind = .keyword k) ∧
      (openBlocks [] toks).head? = some ⟨openTag, keyword⟩ ∧
      ((∃ c, parse (source ++ OpenBlock.closeTag ⟨openTag, keyword⟩) name = .ok c) ∨
        ∃ e' keyword' openTag',
          parse (source ++ OpenBlock.closeTag ⟨openTag, keyword⟩) name = .error e' ∧
          e'.cause = .unclosed keyword' openTag' ∧ e'.offset < e.offset) ∧
      RepairedIn name (openBlocks [] toks).length source := by
  obtain ⟨hoffset, us, outer, hends⟩ := endsInside_of_parse h hcause
  obtain ⟨s, last, hp, hn⟩ := hends.pulls
  have htoks : tokenize source = .ok (us ++ [Token.atEnd source.length]) :=
    tokenize_eq_ok_iff.mpr ⟨us, s, rfl, hends.body.ne_eof, hp, last, hn⟩
  have hblocks := hends.body.opens.openBlocks_last (Token.atEnd source.length)
  refine ⟨_, htoks, ?_, by rw [hblocks]; rfl, ?_, by rw [hblocks]; exact hends.repaired name⟩
  · have hmem : ⟨openTag, keyword⟩ ∈ openBlocks [] (us ++ [Token.atEnd source.length]) := by
      rw [hblocks]
      exact List.mem_cons_self
    rcases opened_of_mem _ hmem with hmem | ⟨xs, ys, k, hcut, ho, hk, -⟩
    · cases hmem
    · exact ⟨xs, ys, k, hcut, ho, hoffset.symm, hk⟩
  · obtain ⟨ts, hclosed⟩ := hends.close
    cases outer with
    | nil => exact .inl (hclosed.parse_ok name)
    | cons b outer =>
      refine .inr ⟨_, b.keyword, b.openTag, hclosed.parse_error name, rfl, ?_⟩
      have htiles := hp.tiles (Nat.zero_le _)
      have hordered := htiles.1.pairwise_offset fun tok htok => htiles.2.2 tok htok
        (hends.body.ne_eof tok htok)
      have hbefore := openBlocks_ordered (List.pairwise_map.mp hordered)
        hends.body.opens.openBlocks_eq
      rw [hoffset]
      exact hbefore

/-- A loop with an `if` tag inside it that is left open behind an `elif`. -/
theorem repaired_of_unclosed_elif :
    parse "<?cs loop:a = 1 ?><?cs if:b ?>x<?cs elif:c ?>y" [] =
        .error ⟨.unclosed ⟨.keyword .ifTag, "if", 23⟩ ⟨.tagOpen, "<?cs ", 18⟩, 18, 1, 19, []⟩ ∧
      RepairedIn [] 2 "<?cs loop:a = 1 ?><?cs if:b ?>x<?cs elif:c ?>y" := by
  have h : parse "<?cs loop:a = 1 ?><?cs if:b ?>x<?cs elif:c ?>y" [] =
      .error ⟨.unclosed ⟨.keyword .ifTag, "if", 23⟩ ⟨.tagOpen, "<?cs ", 18⟩, 18, 1, 19, []⟩ :=
    eq_error_of_failure? (by decide +kernel)
  obtain ⟨toks, htoks, htwo⟩ := exists_ok_of_toOption (f := fun toks => (openBlocks [] toks).length)
    (r := tokenize "<?cs loop:a = 1 ?><?cs if:b ?>x<?cs elif:c ?>y") (b := 2) (by decide +kernel)
  obtain ⟨toks', htoks', -, -, -, hrepaired⟩ := repaired_of_unclosed h rfl
  obtain rfl := Except.ok.inj (htoks.symm.trans htoks')
  rw [htwo] at hrepaired
  exact ⟨h, hrepaired⟩

end ClearSilver
