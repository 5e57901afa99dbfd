/-
# Templates in a row

A template that parses, and does not end in literal text that goes on in what
follows, hands over to the next template: its tokens are the same in the longer
source (`ParsedBody.pulls_front`), its script goes on with the tokens behind
them and enough of the budget (`ParsedBody.feed_front`), and these are alike to
the tokens of the next template alone. So the commands of two templates in a
row are those of the first and those of the second with their positions moved,
and the second fails in the longer source as it fails alone.

Key definitions: `Meets`.
Key theorems: `ParsedBody.pulls_front`, `ParsedBody.append`,
`ParsedBody.append_error`, `parse_append`.
-/
import ClearSilver.Proofs.Parse.Behind

namespace ClearSilver

open Script

variable {first second name : Text} {us : List Token} {cs : List Command}

/-! ### The first template in front -/

/-- Does a template whose last commands are these end where the text goes on? -/
def Meets (cs : List Command) (second : Text) : Prop :=
  (∀ t, cs.getLast? ≠ some (.data t)) ∨ opensTag second = true

/-- The first template, taken in the longer source. -/
theorem ParsedBody.takes_front (h : ParsedBody first us cs) (second : Text) :
    (siblings (.among (lineStarts (first ++ second))) (budgetFor (first ++ second))).Takes us cs
      BodyEnds := by
  have hstands : List.Forall₂ (StandsBefore first.length) us us :=
    List.forall₂_same.mpr fun tok htok => ⟨rfl, h.pulls.offset_le (Nat.zero_le _) tok htok⟩
  have hle : budgetFor first ≤ budgetFor (first ++ second) := by
    simp only [budgetFor, List.length_append]
    omega
  have hlt : us.length < budgetFor (first ++ second) := by
    have hlen := h.length_le
    simp only [budgetFor, List.length_append]
    omega
  obtain ⟨cs', hcs', halike⟩ := siblings_takes_alike (likewise_front first second) hle h.body
    h.takes hstands hlt (Token.atEnd first.length) ⟨rfl, Nat.le_refl _⟩ rfl
  obtain rfl := Command.eq_of_alikeAll halike
  exact hcs'

/-- **The first template hands over** to what stands behind its tokens. -/
theorem ParsedBody.feed_front (h : ParsedBody first us cs) (second : Text) :
    ∃ left, budgetFor second ≤ left ∧ EndsLike us cs ∧
      ∀ ts, (siblings (.among (lineStarts (first ++ second)))
        (budgetFor (first ++ second))).feed (us ++ ts) =
          (siblingsBehind (.among (lineStarts (first ++ second))) cs left).feed ts := by
  have hlen := h.length_le
  have hlt : us.length < budgetFor (first ++ second) := by
    simp only [budgetFor, List.length_append]
    omega
  obtain ⟨left, hleft, -, hends, hpass⟩ :=
    siblings_passes_of_takes h.body hlt (h.takes_front second)
  refine ⟨left, ?_, hends, fun ts => hpass ts trivial⟩
  simp only [budgetFor, List.length_append] at hleft ⊢
  omega

/-- **The tokens of the first template** are those of the longer source, and
the scanner of the second follows. -/
theorem ParsedBody.pulls_front (h : ParsedBody first us cs) (hends : EndsLike us cs)
    (hmeets : Meets cs second) : Pulls (Scanner.start (first ++ second) .content) us
      ((Scanner.start second .content).behind first) := by
  have hlast : Mode.content.LastEnds (us.map Token.lexeme) (List.drop first.length first ++ second)
      := by
    rw [List.drop_length, List.nil_append]
    refine lastEnds_of_commands h.body fun tok htok hk => ?_
    rcases hmeets with hmeets | hmeets
    · exact absurd (hends.data tok htok hk) (hmeets _)
    · exact .inr hmeets
  have heof := Stage.eof_not_mem_of_run (Form.Derives.run_commands h.body) (by decide)
  exact (h.pulls.extend (Nat.zero_le _) (ne_eof_of_not_mem heof) hlast).1

/-! ### The second template behind -/

/-- **Both templates parse.** -/
theorem ParsedBody.append {us' : List Token} {cs' : List Command} (h : ParsedBody first us cs)
    (h' : ParsedBody second us' cs') (hmeets : Meets cs second) (name : Text) :
    parse (first ++ second) name =
      .ok (.ofList (cs ++ cs'.map (Command.relocate (Position.behind first)))) := by
  obtain ⟨left, hleft, hends, hfeed⟩ := h.feed_front second
  have hlt : us'.length < left := by
    have hlen := h'.length_le
    rw [budgetFor] at hleft
    omega
  obtain ⟨ds, hds, halike⟩ := siblings_takes_alike (likewise_behind first second) hleft h'.body
    h'.takes (forall₂_isBehind first.length us') hlt (Token.atEnd second.length) rfl rfl
  rw [Command.AlikeAll, show Command.relocate id = id from funext Command.relocate_id,
    List.map_id] at halike
  have hpulls := (h.pulls_front hends hmeets).append (h'.pulls.behind first)
  have hrest : ((⟨second, second.length, .content⟩ : Scanner).behind first).rest = [] := by
    rw [Scanner.rest_behind]
    exact List.drop_length
  refine parse_of_siblings hpulls (Scanner.next_of_rest_nil hrest) (fun rest hrest => ?_) name
  rw [List.append_assoc, hfeed, siblingsBehind, feed_bind, hds rest hrest, halike]
  rfl

/-- Behind the siblings, too, the ends of two templates are alike. -/
theorem Script.templateEnd_alike {R : Token → Token → Prop} (hR : SameKinds R)
    {ds ds' : List Command} {rest rest' : List Token} (hrest : List.Forall₂ R rest rest') :
    (templateEnd ds rest).Alike R (fun _ _ => True) (templateEnd ds' rest') := by
  cases hrest with
  | nil => exact .waiting
  | @cons t t' rest rest' ht hrest =>
    rw [templateEnd, templateEnd, ← hR t t' ht]
    split
    · exact .gave trivial (.cons ht hrest)
    · cases hrest with
      | nil => exact .waiting
      | cons hu _ => exact .failed (.unexpected (.same _) hu)

/-- The scripts of the second template and of both end alike on its tokens. -/
theorem ParsedBody.feed_alike (h : ParsedBody first us cs) (second : Text) (ts : List Token) :
    ((templateScript second).feed ts).Alike (IsBehind first.length) (fun _ _ => True)
      ((templateScript (first ++ second)).feed (us ++ ts.map (Token.behind first.length))) := by
  obtain ⟨left, hleft, -, hfeed⟩ := h.feed_front second
  have hR := likewise_behind first second
  have hsiblings := siblings_alike hR hleft ts _ (forall₂_isBehind first.length ts)
  rw [templateScript, templateScript, feed_template, feed_template, hfeed, siblingsBehind,
    feed_bind]
  generalize (siblings (.among (lineStarts second)) (budgetFor second)).feed ts = fed at hsiblings
  generalize (siblings _ left).feed _ = fed' at hsiblings
  cases hsiblings with
  | gave _ hrest => exact templateEnd_alike hR.kinds hrest
  | failed hf => exact .failed hf
  | exhausted fed' => exact .exhausted _
  | waiting => exact .waiting

/-- **The second template fails behind the first** as it fails alone. -/
theorem ParsedBody.append_error {e : ParseError} (h : ParsedBody first us cs)
    (he : parse second name = .error e) (hmeets : Meets cs second) (name' : Text) :
    parse (first ++ second) name' =
        .error ((e.cause.behind first.length).located (first ++ second) name') ∧
      e.cause ≠ .exhausted := by
  obtain ⟨fault, hfault, rfl⟩ := templateRun_of_parse_error he
  obtain ⟨-, -, hends, -⟩ := h.feed_front second
  obtain ⟨s, hdecides⟩ := decides_drain second
  have hpulls := (h.pulls_front hends hmeets).append (hdecides.pulls.behind first)
  have hbehind : OutcomesAlike (IsBehind first.length) (fun _ _ => True)
      (fun fault fault' => fault' = fault.behind first.length)
      (templateRun second).outcome (templateRun (first ++ second)).outcome := by
    refine (h.feed_alike second _).run hdecides.pulls hpulls hdecides.lasts fun hwaits => ?_
    obtain ⟨stop, hn⟩ := hdecides.waits hwaits
    exact ⟨stop, _, s, _, rfl, hn, Scanner.next_behind_fault first hn⟩
  have houtcome : (templateRun (first ++ second)).outcome =
      .error (fault.behind first.length) := by
    rw [hfault] at hbehind
    generalize (templateRun (first ++ second)).outcome = o at hbehind
    cases hbehind with
    | failed hf => rw [hf.eq_behind]
    | stopped hF =>
      rw [hF]
      rfl
  refine ⟨?_, fun hexhausted => templateRun_ne_exhausted second (hexhausted ▸ hfault)⟩
  rw [parse, houtcome]
  rfl

/-! ### Two templates in a row -/

namespace Command

theorem parts_of_isSibling {c : Command} (h : c.isSibling = true) : c.parts = [c] := by
  cases c with
  | multiple _ => cases h
  | noop => cases h
  | _ => rfl

theorem isSibling_relocate (f : Position → Position) (c : Command) :
    (c.relocate f).isSibling = c.isSibling := by
  cases c <;> rfl

theorem Tidy.parts_ofList {cs : List Command} (h : Tidy cs) : (ofList cs).parts = cs :=
  Command.parts_ofList cs fun c hc => parts_of_isSibling (List.all_eq_true.mp h.siblings c hc)

/-- The commands of two bodies in a row, the second with its positions moved. -/
theorem Tidy.parts_append {cs ds : List Command} (hcs : Tidy cs) (hds : Tidy ds)
    (f : Position → Position) :
    (ofList (cs ++ ds.map (relocate f))).parts = cs ++ ds.map (relocate f) := by
  refine Command.parts_ofList _ fun c hc => parts_of_isSibling ?_
  rcases List.mem_append.mp hc with hc | hc
  · exact List.all_eq_true.mp hcs.siblings c hc
  · obtain ⟨d, hd, rfl⟩ := List.mem_map.mp hc
    rw [isSibling_relocate]
    exact List.all_eq_true.mp hds.siblings d hd

end Command

theorem Meets.of_nil (h : ParsedBody [] us cs) (second : Text) : Meets cs second := by
  obtain ⟨-, -, hends, -⟩ := h.feed_front second
  have hus : us = [] := List.eq_nil_of_length_eq_zero (Nat.le_zero.mp h.length_le)
  rw [hends.nil.mp hus]
  exact .inl fun _ => nofun

/-- **Templates concatenate.** If a source parses and is empty, or does not end
with literal text, or a tag follows at once, then the next source parses behind
it to the same commands with their positions moved, or fails behind it in the
same way so many characters further on. -/
theorem parse_append {first second name : Text} {c₁ : Command} (h₁ : parse first name = .ok c₁)
    (hmeets : first = [] ∨ (∀ t, c₁.parts.getLast? ≠ some (.data t)) ∨ opensTag second = true) :
    (∀ c₂, parse second name = .ok c₂ → ∃ c, parse (first ++ second) name = .ok c ∧
      c.parts = c₁.parts ++ c₂.parts.map (Command.relocate (Position.behind first))) ∧
    ∀ e, parse second name = .error e → ∃ e', parse (first ++ second) name = .error e' ∧
      e'.cause = e.cause.behind first.length ∧ e'.offset = e.offset + first.length := by
  obtain ⟨us, cs, h, rfl⟩ := parsedBody_of_parse h₁
  rw [h.tidy.parts_ofList] at hmeets ⊢
  have hmeets : Meets cs second := by
    rcases hmeets with rfl | hmeets
    · exact .of_nil h second
    · exact hmeets
  constructor
  · intro c₂ h₂
    obtain ⟨us', cs', h', rfl⟩ := parsedBody_of_parse h₂
    refine ⟨_, h.append h' hmeets name, ?_⟩
    rw [h'.tidy.parts_ofList]
    exact h.tidy.parts_append h'.tidy _
  · intro e he
    obtain ⟨herror, hne⟩ := h.append_error he hmeets name
    obtain ⟨fault, -, rfl⟩ := templateRun_of_parse_error he
    exact ⟨_, herror, rfl, fault.offset_behind hne _⟩

/-- A tag behind two lines, and a tag that goes wrong there. -/
theorem parse_append_lines : ∃ c₁ c₂ c,
    parse "a\nb<?cs var:x ?>" [] = .ok c₁ ∧ parse "<?cs name:y ?>" [] = .ok c₂ ∧
      parse "a\nb<?cs var:x ?><?cs name:y ?>" [] = .ok c ∧
      c.parts =
        c₁.parts ++ c₂.parts.map (Command.relocate (Position.behind "a\nb<?cs var:x ?>")) ∧
      c.parts.map Command.position? = [none, some ⟨3, 2, 2⟩, some ⟨16, 2, 15⟩] ∧
    ∃ e e', parse "<?cs ?>" [] = .error e ∧ parse "a\nb<?cs var:x ?><?cs ?>" [] = .error e' ∧
      e'.cause = e.cause.behind 16 ∧ e'.offset = 5 + 16 := by
  obtain ⟨c₁, h₁, -⟩ := exists_ok_of_toOption (f := fun _ => ())
    (r := parse "a\nb<?cs var:x ?>" []) (b := ()) (by decide +kernel)
  obtain ⟨c₂, h₂, -⟩ := exists_ok_of_toOption (f := fun _ => ())
    (r := parse "<?cs name:y ?>" []) (b := ()) (by decide +kernel)
  obtain ⟨c, h, hplaces⟩ := exists_ok_of_toOption (f := fun c => c.parts.map Command.position?)
    (r := parse "a\nb<?cs var:x ?><?cs name:y ?>" [])
    (b := [none, some ⟨3, 2, 2⟩, some ⟨16, 2, 15⟩]) (by decide +kernel)
  have he : parse "<?cs ?>" [] =
      .error ⟨.unexpected .commandKeyword ⟨.tagClose, "?>", 5⟩, 5, 1, 6, []⟩ :=
    eq_error_of_failure? (by decide +kernel)
  obtain ⟨c', hc', hparts⟩ := (parse_append h₁ (.inr (.inr rfl))).1 c₂ h₂
  obtain rfl : c' = c := Except.ok.inj (hc'.symm.trans h)
  obtain ⟨e', he', hcause, hoffset⟩ := (parse_append h₁ (.inr (.inr rfl))).2 _ he
  exact ⟨c₁, c₂, c', h₁, h₂, hc', hparts, hplaces, _, e', he, he', hcause, hoffset⟩

end ClearSilver
