/-
# Templates inside of blocks

A block around nothing is a head and a close tag. The close tag is what the
last `<` of the source begins, so the head is a text of its own with the tokens
in front of it (`Pulls.before_close`), and it ends with the end of a tag. So
any text can stand behind the head. A template that stands there is read as it
is alone, with its positions moved: its tokens are the same, it ends before the
close tag as it does at its end, and the block takes whatever body it encloses
(`Script.Encloses`).

Key definitions: `BlockHead`.
Key theorems: `Pulls.before_close`, `blockHead_of_parse`, `BlockHead.parse_eq`,
`parse_nested`.
-/
import ClearSilver.Proofs.Parse.Concatenate
import ClearSilver.Proofs.Parser.Encloses
import ClearSilver.Proofs.Written.Command

namespace ClearSilver

open Script

variable {head source name : Text} {k : Keyword} {us cl : List Token}

/-! ### Where the close tag begins -/

/-- The last mark of a sort is at one place. -/
theorem append_cons_inj_of_not_mem_right {a : Char} {t u r r' : Text}
    (h : t ++ a :: r = u ++ a :: r') (hr : a ∉ r) (hr' : a ∉ r') : t = u ∧ r = r' := by
  have hbehind : ∀ {t r : Text}, a ∉ r →
      (t ++ a :: r).reverse.dropWhile (· ≠ a) = a :: t.reverse := by
    intro t r hr
    have hall : r.reverse.all (· ≠ a) = true :=
      List.all_eq_true.mpr fun c hc => by
        have hc := List.mem_reverse.mp hc
        simpa using fun heq : c = a => hr (heq ▸ hc)
    have hstops : Text.Stops (· ≠ a) (a :: t.reverse) := by simp [Text.Stops]
    rw [List.reverse_append, List.reverse_cons, List.append_assoc]
    exact Text.dropWhile_run hall hstops
  have hlast := congrArg (fun t : Text => t.reverse.dropWhile (· ≠ a)) h
  simp only [hbehind hr, hbehind hr', List.cons.injEq, List.reverse_inj, true_and] at hlast
  subst hlast
  exact ⟨rfl, (List.cons_eq_cons.mp (List.append_cancel_left h)).2⟩

theorem Keyword.lt_not_mem_of_ofText? {t : Text} {k : Keyword} (h : Keyword.ofText? t = some k) :
    '<' ∉ t := by
  have hall : ∀ p ∈ Keyword.spellings, '<' ∉ p.1 := by decide
  exact hall _ (Keyword.mem_spellings h)

theorem closeWritten_eq (k : Keyword) : ∃ r, closeWritten k = '<' :: r ∧ '<' ∉ r := by
  cases k <;> exact ⟨_, rfl, by decide⟩

theorem opensTag_closeWritten (k : Keyword) : opensTag (closeWritten k) = true := by
  cases k <;> rfl

theorem lt_not_mem_of_blank {b : Text} (h : b.all isBlank = true) : '<' ∉ b := by
  intro hmem
  have := List.all_eq_true.mp h _ hmem
  cases this

/-- The text of a close tag begins with its only `<`, outside of the tags. -/
theorem Lexes.of_close {m m' : Mode} {t : Text} {ls : List Lexeme} (h : Lexes m t ls m' [])
    (hls : ls.map Prod.fst = [.tagOpen, .symbol .slash, .keyword k, .tagClose]) :
    m = .content ∧ ∃ r, t = '<' :: r ∧ '<' ∉ r := by
  obtain ⟨⟨_, x⟩, ls₁, rfl, rfl, hls₁⟩ := List.map_eq_cons_iff.mp hls
  obtain ⟨⟨_, y⟩, ls₂, rfl, rfl, hls₂⟩ := List.map_eq_cons_iff.mp hls₁
  obtain ⟨⟨_, z⟩, ls₃, rfl, rfl, hls₃⟩ := List.map_eq_cons_iff.mp hls₂
  obtain ⟨⟨_, w⟩, ls₄, rfl, rfl, hls₄⟩ := List.map_eq_cons_iff.mp hls₃
  obtain rfl := List.map_eq_nil_iff.mp hls₄
  obtain _ | ⟨hb, hx, -, h⟩ := h
  obtain rfl := hx.mode_eq_content (.inr rfl)
  obtain _ | ⟨hb₁, hy, -, h⟩ := h
  obtain _ | ⟨hb₂, hz, -, h⟩ := h
  obtain _ | ⟨hb₃, hw, -, h⟩ := h
  obtain _ | _ := h
  obtain ⟨b, -, hblank, rfl⟩ := hx
  obtain ⟨-, rfl⟩ := hy
  obtain ⟨c, hblank', rfl⟩ := hw
  have hkeyword : '<' ∉ z := Keyword.lt_not_mem_of_ofText? hz.2
  have hopen : '<' ∉ b := lt_not_mem_of_blank hblank
  have hend : '<' ∉ c := lt_not_mem_of_blank hblank'
  rw [hb.2 (by simp), hb₁.2 (by simp [Mode.step]), hb₂.2 (by simp [Mode.step]),
    hb₃.2 (by simp [Mode.step])]
  refine ⟨rfl, '?' :: 'c' :: 's' :: (b ++ '/' :: (z ++ (c ++ ['?', '>']))), ?_, ?_⟩
  · simp [Symbol.text]
  · simp [hkeyword, hopen, hend]

/-- What stands before a close tag ends outside of the tags. -/
theorem Stage.run_before_close (hcl : (Form.phrase (.close k)).Matches cl)
    (h : Stage.content.run ((us ++ cl).map (·.kind)) = some .content) :
    Stage.content.run (us.map (·.kind)) = some .content := by
  obtain ⟨o, slash, kw, last, rfl, ho, -⟩ := matches_close hcl
  rw [List.map_append, List.map_cons, ho] at h
  exact Stage.run_before_tagOpen h

/-- **The head of a block** has the tokens before the close tag, and what is
left of them is the close tag. -/
theorem Pulls.before_close {k' : Keyword}
    (h : Pulls (Scanner.start (head ++ closeWritten k) .content) (us ++ cl)
      ⟨head ++ closeWritten k, (head ++ closeWritten k).length, .content⟩)
    (hrun : Stage.content.run (us.map (·.kind)) = some .content)
    (hcl : (Form.phrase (.close k')).Matches cl) :
    Pulls (Scanner.start head .content) us ⟨head, head.length, .content⟩ ∧
      Lexes .content (closeWritten k) (cl.map Token.lexeme) .content [] := by
  have hne := ne_eof_of_not_mem (Stage.eof_not_mem_of_run hrun (by decide))
  obtain ⟨o, slash, kw, last, rfl, ho, hslash, hkw, hlast⟩ := matches_close hcl
  obtain ⟨s, hfront, hback⟩ := h.split
  -- the close tag is read from its `<` on
  have hclose := (hback.lexes (by simp [ho, hslash, hkw, hlast])).2
  rw [show (⟨head ++ closeWritten k, (head ++ closeWritten k).length, .content⟩ : Scanner).rest = []
    from List.drop_length] at hclose
  have hkinds : ([o, slash, kw, last].map Token.lexeme).map Prod.fst =
      [.tagOpen, .symbol .slash, .keyword k', .tagClose] := by
    simp [Token.lexeme, ho, hslash, hkw, hlast]
  obtain ⟨hmode, r, hrest, hr⟩ := Lexes.of_close hclose hkinds
  -- so the tokens before it are those of the head
  obtain ⟨r', hr', hlt⟩ := closeWritten_eq k
  obtain ⟨p, hp, -⟩ := (hfront.lexes hne).2.splice (Mode.lastEnds_nil _ _)
  have hsource : head ++ closeWritten k = p ++ s.rest := hp
  rw [hr', hrest] at hsource
  obtain ⟨-, rfl⟩ := append_cons_inj_of_not_mem_right hsource hlt hr
  rw [← hr'] at hrest
  have hhead := hfront.cut hne hrest
  rw [hmode] at hhead
  rw [hmode, hrest] at hclose
  exact ⟨hhead, hclose⟩

/-! ### Blocks around nothing -/

/-- A text that is the head of a block: its tokens, those of the close tag, and
what the block is with a body. -/
structure BlockHead (k : Keyword) (head : Text) (openTag keyword : Token) (us cl : List Token)
    (build : Position → Command → Command) : Prop where
  pulls : Pulls (Scanner.start head .content) (openTag :: keyword :: us)
    ⟨head, head.length, .content⟩
  plain : ∀ tok ∈ openTag :: keyword :: us, tok.kind ≠ .eof
  opens : openTag.kind = .tagOpen
  begins : endsBody keyword.kind = false
  ends : us.getLast?.map (·.kind) = some .tagClose
  close : Lexes .content (closeWritten k) (cl.map Token.lexeme) .content []
  encloses : ∃ k', (Form.phrase (.close k')).Matches cl ∧ Encloses k' openTag keyword us build

theorem Command.eq_singleton_of_body? {cs : List Command} (h : (ofList cs).body? ≠ none) :
    cs = [ofList cs] := by
  match cs, h with
  | [], h => exact absurd rfl h
  | [_], _ => rfl
  | _ :: _ :: _, h => exact absurd rfl h

theorem Command.ofList_eq_noop : ∀ {cs : List Command}, ofList cs = .noop → cs = [] ∨ cs = [.noop]
  | [], _ => .inl rfl
  | [_], h => .inr (congrArg (fun c => [c]) h)
  | _ :: _ :: _, h => nomatch h

/-- Tokens without a tag that are taken as nothing are none. -/
theorem eq_nil_of_noop {place : Nat → Position} {budget : Nat} {cs : List Command}
    (hm : (Form.phrase .commands).Matches us) (hlt : us.length < budget + 1)
    (h : (siblings place (budget + 1)).Takes us cs BodyEnds) (hcs : Command.ofList cs = .noop)
    (hopen : ∀ tok ∈ us, tok.kind ≠ .tagOpen) : us = [] := by
  rcases Command.ofList_eq_noop hcs with rfl | rfl
  · obtain ⟨-, -, -, hends, -⟩ := siblings_passes_of_takes hm hlt h
    exact hends.nil.mpr rfl
  · obtain ⟨hcommand, -⟩ := command_of_takes hm hlt h rfl
    obtain ⟨o, ws, ho, rfl, -⟩ := Form.matches_token_both.mp (Form.matches_phrase.mp hcommand)
    exact absurd ho (hopen o List.mem_cons_self)

/-- The tokens behind the only tag of a text open no other one. -/
theorem Pulls.no_tagOpen {o : Token} (h : Pulls (Scanner.start head .content) (o :: us)
    ⟨head, head.length, .content⟩) (ho : o.kind = .tagOpen)
    (hne : ∀ tok ∈ o :: us, tok.kind ≠ .eof)
    (hone : (Scanner.start head .content).drain.1.countP (·.kind = .tagOpen) = 1) :
    ∀ tok ∈ us, tok.kind ≠ .tagOpen := by
  have hdrain : (Scanner.start head .content).drain =
      (o :: us ++ [Token.atEnd head.length], Option.none, ⟨head, head.length, .content⟩) :=
    Scanner.drainUpTo_of_pulls h hne (Scanner.next_of_rest_nil List.drop_length) rfl _
      (Nat.lt_succ_of_le (h.length_le hne))
  rw [hdrain, List.cons_append, List.countP_cons_of_pos (by simpa using ho)] at hone
  have hnone := List.countP_eq_zero.mp (Nat.succ.inj hone)
  intro tok htok
  simpa using hnone tok (List.mem_append_left _ htok)

/-- A source that is one command with a body is the tokens of a block. -/
theorem ParsedBody.blocks {cs : List Command} (h : ParsedBody source us cs)
    (hbody : (Command.ofList cs).body? ≠ none) : ∃ o kw ts, us = o :: kw :: ts ∧
      o.kind = .tagOpen ∧ endsBody kw.kind = false ∧ Blocks o kw ts ∧
      (command (.among (lineStarts source)) (source.length + 1)).Takes us (.ofList cs) anyRest := by
  have hsingle : cs = [Command.ofList cs] := Command.eq_singleton_of_body? hbody
  have hdata : (Command.ofList cs).isData = false := by
    generalize Command.ofList cs = c at hbody
    cases c <;> first | rfl | exact absurd rfl hbody
  have htaken := h.takes
  rw [hsingle, budgetFor] at htaken
  have hlen := h.length_le
  obtain ⟨hcommand, htakes⟩ := command_of_takes h.body (by omega) htaken hdata
  obtain ⟨o, ws, ho, rfl, hws⟩ := Form.matches_token_both.mp (Form.matches_phrase.mp hcommand)
  obtain ⟨kw, ts, rfl, hbegins, -⟩ : CompletesTag (.among (lineStarts source)) _ _ ws :=
    keyworded_of_matches (siblings_takes (.among (lineStarts source)) ws.length).marked hws
      (Nat.le_refl _)
  have hfed := htakes [] trivial
  rw [List.append_nil] at hfed
  obtain ⟨k, hk, hopens⟩ := opensBlock_of_body ho hfed hbody
  exact ⟨o, kw, ts, rfl, ho, hbegins, exists_encloses ho hws hk hopens, htakes⟩

/-- **A block around nothing** is the head of a block and a close tag. -/
theorem blockHead_of_parse {block : Command}
    (hone : (Scanner.start head .content).drain.1.countP (·.kind = .tagOpen) = 1)
    (h : parse (head ++ closeWritten k) name = .ok block) (hbody : block.body? = some .noop) :
    ∃ openTag keyword us cl build, BlockHead k head openTag keyword us cl build ∧
      block = build (Position.of head openTag.offset) .noop := by
  obtain ⟨us, cs, hparsed, rfl⟩ := parsedBody_of_parse h
  obtain ⟨o, kw, ts, rfl, ho, hbegins, hblocks, htakes⟩ := hparsed.blocks (by simp [hbody])
  obtain ⟨k', hs, ws, others, cl, build, hk', rfl, hends, hws, hothers, hcl, hbuild⟩ := hblocks
  -- the close tag stands behind the head
  have hpulls := hparsed.pulls
  have hcut : o :: kw :: (hs ++ (ws ++ (others ++ cl))) =
      (o :: kw :: (hs ++ (ws ++ others))) ++ cl := by simp
  have hrun := Form.Derives.run_commands hparsed.body
  rw [hcut] at hpulls hrun
  have hrun := Stage.run_before_close hcl hrun
  obtain ⟨hhead, hclose⟩ := hpulls.before_close hrun hcl
  -- the head has no other tag, so no other branch and no body
  have hne := ne_eof_of_not_mem (Stage.eof_not_mem_of_run hrun (by decide))
  have hnone := hhead.no_tagOpen ho hne hone
  obtain rfl : others = [] := by
    refine hothers.resolve_right ?_
    rintro ⟨t, ht, hk⟩
    exact hnone t (by simp [ht]) hk
  have hlen := hparsed.length_le
  rw [List.nil_append] at hlen htakes
  simp only [List.length_cons, List.length_append] at hlen
  obtain ⟨ds, hds⟩ := siblings_takes (.among (lineStarts (head ++ closeWritten k)))
    ((head ++ closeWritten k).length + 1) ws hws (by simp only [List.length_append]; omega)
  have hblock := htakes.unique (hbuild.takes _ _ (by simp only [List.length_append]; omega) hds hcl)
    [] trivial trivial
  have hnoop : Command.ofList ds = .noop := by
    rw [hblock, hbuild.body] at hbody
    exact Option.some.inj hbody
  obtain rfl := eq_nil_of_noop hws (by simp only [List.length_append]; omega) hds hnoop
    fun tok htok => hnone tok (by simp [htok])
  have hoffset : o.offset ≤ head.length := hhead.offset_le (Nat.zero_le _) o List.mem_cons_self
  rw [List.append_nil, List.append_nil] at hhead
  rw [List.append_nil, List.append_nil] at hne
  refine ⟨o, kw, hs, cl, build, ⟨hhead, hne, ho, hbegins, hends, hclose, k', hcl, hbuild⟩, ?_⟩
  rw [hblock, hnoop, ← Position.of_append head (closeWritten k) hoffset]
  rfl

/-! ### Blocks around a template -/

namespace BlockHead

variable {openTag keyword : Token} {build : Position → Command → Command} {vs : List Token}
  {cs : List Command}

/-- The tokens of a block around a template are those of its head, of the
template and of the close tag. -/
theorem pulls_nested (h : BlockHead k head openTag keyword us cl build)
    (hbody : ParsedBody source vs cs) : ∃ cl' s s',
      Pulls (Scanner.start (head ++ (source ++ closeWritten k)) .content)
        (openTag :: keyword :: (us ++ (vs.map (Token.behind head.length) ++ cl'))) s ∧
      s.next = (.ok (Token.atEnd (head ++ (source ++ closeWritten k)).length), s') ∧
      cl'.map (·.kind) = cl.map (·.kind) := by
  have hmeets : Meets cs (closeWritten k) := .inr (opensTag_closeWritten k)
  obtain ⟨-, -, hends, -⟩ := hbody.feed_front (closeWritten k)
  obtain ⟨cl', pos, hcl', hsame, hnil⟩ := h.close.pulls (closeWritten k) 0 rfl
  have hinner := (hbody.pulls_front hends hmeets).append (hcl'.behind source)
  have hlast : (openTag :: keyword :: us).getLast?.map (·.kind) = some .tagClose := by
    obtain ⟨last, hus, hk⟩ := Option.map_eq_some_iff.mp h.ends
    rw [List.getLast?_cons, List.getLast?_cons, hus]
    exact congrArg some hk
  have houter : Pulls (Scanner.start (head ++ (source ++ closeWritten k)) .content)
      (openTag :: keyword :: us)
      ((Scanner.start (source ++ closeWritten k) .content).behind head) :=
    (h.pulls.extend (Nat.zero_le _) h.plain (Mode.lastEnds_of_tagClose hlast _ _)).1
  have hall := houter.append (hinner.behind head)
  rw [List.map_append] at hall
  refine ⟨_, _, _, hall, Scanner.next_of_rest_nil ?_, ?_⟩
  · rw [Scanner.rest_behind, Scanner.rest_behind, hnil]
  · have hkinds : cl'.map (·.kind) = cl.map (·.kind) := by
      rw [← map_lexeme_fst, hsame, map_lexeme_fst]
    rw [List.map_map, List.map_map]
    exact hkinds

/-- **A template inside of a block** is the body of the block, with its
positions moved. -/
theorem parse_eq (h : BlockHead k head openTag keyword us cl build)
    (hbody : ParsedBody source vs cs) (name : Text) :
    parse (head ++ (source ++ closeWritten k)) name =
      .ok (build (Position.of head openTag.offset)
        ((Command.ofList cs).relocate (Position.behind head))) := by
  obtain ⟨cl', s, s', hpulls, hn, hkinds⟩ := h.pulls_nested hbody
  obtain ⟨k', hcl, hencloses⟩ := h.encloses
  have hcl' : (Form.phrase (.close k')).Matches cl' := by
    rw [Form.Matches, hkinds]
    exact hcl
  have hhead := h.pulls.length_le h.plain
  have hvs := hbody.length_le
  obtain ⟨o, slash, kw, last, rfl, -⟩ := matches_close hcl'
  have hclose : 4 ≤ (closeWritten k).length := by cases k <;> decide
  simp only [List.length_cons] at hhead
  -- the body is read behind the head, and before the close tag
  have hle : budgetFor (source ++ closeWritten k) ≤
      (head ++ (source ++ closeWritten k)).length + 1 := by
    simp only [budgetFor, List.length_append]
    omega
  obtain ⟨ds, hds, halike⟩ := siblings_takes_alike (likewise_behind head (source ++ closeWritten k))
    hle hbody.body (hbody.takes_front (closeWritten k)) (forall₂_isBehind head.length vs)
    (by simp only [List.length_append]; omega) (Token.atEnd source.length) rfl rfl
  have hof : (Command.ofList cs).relocate (Position.behind head) = .ofList ds := by
    have hsame := Command.Alike.ofList halike
    rwa [Command.Alike, Command.relocate_id] at hsame
  have hcommand := hencloses.takes (.among (lineStarts (head ++ (source ++ closeWritten k))))
    ((head ++ (source ++ closeWritten k)).length + 1)
    (by simp only [List.length_append, List.length_map, List.length_cons, List.length_nil]; omega)
    hds hcl'
  have htakes := siblings_command h.opens h.begins hcommand (siblings_end _ _)
  rw [List.append_nil] at htakes
  rw [parse_of_siblings hpulls hn htakes name, hof]
  have hoffset : openTag.offset ≤ head.length :=
    h.pulls.offset_le (Nat.zero_le _) openTag List.mem_cons_self
  rw [← Position.of_append head (source ++ closeWritten k) hoffset]
  rfl

end BlockHead

/-- **Nesting is compositional.** If a head with one tag and the close tag of a
keyword are parsed as a block around nothing, then every source that parses can
stand between them: it is parsed as the body of that block, with its positions
moved. -/
theorem parse_nested {block body : Command}
    (hone : (Scanner.start head .content).drain.1.countP (·.kind = .tagOpen) = 1)
    (hblock : parse (head ++ closeWritten k) name = .ok block)
    (hempty : block.body? = some .noop) (hbody : parse source name = .ok body) :
    parse (head ++ source ++ closeWritten k) name =
      .ok (block.withBody (body.relocate (Position.behind head))) := by
  obtain ⟨openTag, keyword, us, cl, build, hhead, rfl⟩ := blockHead_of_parse hone hblock hempty
  obtain ⟨vs, cs, hparsed, rfl⟩ := parsedBody_of_parse hbody
  obtain ⟨k', -, hencloses⟩ := hhead.encloses
  rw [List.append_assoc, hhead.parse_eq hparsed, hencloses.withBody]

/-- A line with a tag inside of an `if` tag. -/
theorem parse_nested_if : ∃ block body,
    (Scanner.start "<?cs if:a ?>" .content).drain.1.countP (·.kind = .tagOpen) = 1 ∧
      parse ("<?cs if:a ?>".toList ++ closeWritten .ifTag) [] = .ok block ∧
      block.body? = some .noop ∧ parse "x\n<?cs var:b ?>" [] = .ok body ∧
      parse ("<?cs if:a ?>".toList ++ "x\n<?cs var:b ?>".toList ++ closeWritten .ifTag) [] =
        .ok (block.withBody (body.relocate (Position.behind "<?cs if:a ?>"))) := by
  have hone : (Scanner.start "<?cs if:a ?>" .content).drain.1.countP (·.kind = .tagOpen) = 1 := by
    decide +kernel
  obtain ⟨block, hblock, hkind⟩ := exists_ok_of_toOption
    (f := fun c : Command => c.body?.map Command.kind) (b := some .noop)
    (r := parse ("<?cs if:a ?>".toList ++ closeWritten .ifTag) []) (by decide +kernel)
  have hempty : block.body? = some .noop := by
    obtain ⟨c, hc, hnoop⟩ := Option.map_eq_some_iff.mp hkind
    rw [hc]
    cases c <;> first | rfl | cases hnoop
  obtain ⟨body, hsource, -⟩ := exists_ok_of_toOption (f := fun _ => ()) (b := ())
    (r := parse "x\n<?cs var:b ?>" []) (by decide +kernel)
  exact ⟨block, body, hone, hblock, hempty, hsource, parse_nested hone hblock hempty hsource⟩

end ClearSilver
