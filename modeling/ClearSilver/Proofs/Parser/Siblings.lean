/-
# Siblings in front of others

A body ends with literal text or with the end of a tag, and the script of
siblings takes nothing of what stands behind: it passes over the body and goes
on with the budget that is left, whatever comes next (`Script.siblings_passes`).
So the siblings of two texts in a row are those of the first and then those of
the second. Literal text at the end of the tokens is the last command
(`EndsLike`).

Key definitions: `EndsLike`, `Script.siblingsBehind`.
Key theorems: `Script.siblings_passes`, `lastEnds_of_commands`.
-/
import ClearSilver.Proofs.Grammar.Spelling
import ClearSilver.Proofs.Parser.CommandAlike
import ClearSilver.Proofs.Parser.CommandTakes
import ClearSilver.Proofs.Scan.Splice

namespace ClearSilver

open Form

/-! ### How a body ends -/

/-- Is the last of the commands the last of the tokens, where that is literal
text, and is there a command if there is a token? -/
structure EndsLike (ts : List Token) (cs : List Command) : Prop where
  nil : ts = [] ↔ cs = []
  data : ∀ tok ∈ ts.getLast?, tok.kind = .data → cs.getLast? = some (.data tok.text)

theorem EndsLike.of_nil : EndsLike [] [] where
  nil := ⟨fun _ => rfl, fun _ => rfl⟩
  data := by simp

/-- More tokens with their commands stand in front. -/
theorem EndsLike.behind {us ts : List Token} {c : Command} {cs : List Command}
    (h : EndsLike ts cs) (hne : us ≠ [])
    (hlast : ∀ tok ∈ us.getLast?, tok.kind = .data → c = .data tok.text) :
    EndsLike (us ++ ts) (c :: cs) where
  nil := ⟨fun hnil => absurd (List.append_eq_nil_iff.mp hnil).1 hne, nofun⟩
  data := by
    intro tok htok hk
    by_cases hts : ts = []
    · rw [hts, List.append_nil] at htok
      rw [h.nil.mp hts, hlast tok htok hk]
      rfl
    · have hsome : ts.getLast?.isSome = true := List.getLast?_isSome.mpr hts
      rw [List.getLast?_append, Option.or_of_isSome hsome] at htok
      rw [List.getLast?_cons, h.data tok htok hk]
      rfl

/-- Two kinds of tokens lead to the content. -/
theorem Stage.kind_of_step_content {st : Stage} {k : Token.Kind} (h : st.step k = some .content) :
    k = .data ∨ k = .tagClose := by
  unfold step at h
  split at h <;> first | exact .inl rfl | exact .inr rfl | cases h

/-- A body ends with literal text or with the end of a tag. -/
theorem getLast?_of_commands {ts : List Token} {tok : Token} (h : (phrase .commands).Matches ts)
    (hlast : tok ∈ ts.getLast?) : tok.kind = .data ∨ tok.kind = .tagClose := by
  obtain ⟨us, rfl⟩ := List.getLast?_eq_some_iff.mp hlast
  have hrun := Form.Derives.run_commands h
  rw [List.map_append, Stage.run_append] at hrun
  obtain ⟨st, -, hst⟩ := Option.bind_eq_some_iff.mp hrun
  obtain ⟨st', hstep, hend⟩ := Option.bind_eq_some_iff.mp hst
  obtain rfl := Option.some.inj hend
  exact Stage.kind_of_step_content hstep

/-- Where the last lexeme ends, if it ends so in every mode. -/
theorem Mode.lastEnds_append {l : Lexeme} {r : Text} (h : ∀ m : Mode, m.Ends l.1 l.2 r) :
    ∀ (ls : List Lexeme) (m : Mode), m.LastEnds (ls ++ [l]) r
  | [], m => h m
  | [_], _ => h _
  | (k, _) :: l' :: ls, m => Mode.lastEnds_append h (l' :: ls) (m.step k)

/-- The end of a tag ends before any text. -/
theorem Mode.lastEnds_of_tagClose {ts : List Token}
    (h : ts.getLast?.map (·.kind) = some .tagClose) (m : Mode) (r : Text) :
    m.LastEnds (ts.map Token.lexeme) r := by
  obtain ⟨tok, htok, hk⟩ := Option.map_eq_some_iff.mp h
  obtain ⟨us, rfl⟩ := List.getLast?_eq_some_iff.mp htok
  rw [List.map_append]
  refine Mode.lastEnds_append (fun m => ?_) _ _
  rw [Token.lexeme, hk]
  cases m <;> trivial

/-- **A body ends** where its last literal text does; the end of a tag ends
before any text. -/
theorem lastEnds_of_commands {ts : List Token} {r : Text} (h : (phrase .commands).Matches ts)
    (hdata : ∀ tok ∈ ts.getLast?, tok.kind = .data → r = [] ∨ opensTag r = true) :
    Mode.content.LastEnds (ts.map Token.lexeme) r := by
  cases hlast : ts.getLast? with
  | none =>
    rw [List.getLast?_eq_none_iff.mp hlast]
    trivial
  | some tok =>
    have hmem : tok ∈ ts.getLast? := hlast
    rcases getLast?_of_commands h hmem with hk | hk
    · have hr := hdata tok hmem hk
      obtain ⟨us, hus⟩ := List.getLast?_eq_some_iff.mp hlast
      rw [hus, List.map_append]
      refine Mode.lastEnds_append (fun m => ?_) _ _
      rw [Token.lexeme, hk]
      cases m with
      | content => exact hr
      | _ => trivial
    · exact Mode.lastEnds_of_tagClose (by rw [hlast, Option.map_some, hk]) _ _

/-! ### Passing over a body -/

namespace Script

/-- Siblings with others in front of them. -/
def siblingsBehind (place : Nat → Position) (cs : List Command) (budget : Nat) :
    Script (List Command) :=
  (siblings place budget).bind fun more => done (cs ++ more)

theorem siblingsBehind_nil (place : Nat → Position) (budget : Nat) :
    siblingsBehind place [] budget = siblings place budget :=
  bind_done _

theorem siblingsBehind_cons (place : Nat → Position) (c : Command) (cs : List Command)
    (budget : Nat) : (siblingsBehind place cs budget).bind (fun more => done (c :: more)) =
      siblingsBehind place (c :: cs) budget := by
  unfold siblingsBehind
  rw [bind_assoc]
  rfl

/-- **Siblings pass over a body** to those behind it, with a budget that is
less by no more than the tokens of the body. -/
theorem siblings_passes (place : Nat → Position) : ∀ (budget : Nat) {ts : List Token},
    (phrase .commands).Matches ts → ts.length < budget → ∃ cs left, budget ≤ left + ts.length ∧
      left ≤ budget ∧ EndsLike ts cs ∧
        (siblings place budget).Passes ts (siblingsBehind place cs left) anyRest
  | 0, _, _, hlt => absurd hlt (Nat.not_lt_zero _)
  | budget + 1, ts, h, hlt => by
    obtain ⟨parts, rfl, hparts⟩ := matches_many.mp (matches_phrase.mp h)
    cases parts with
    | nil =>
      refine ⟨[], budget + 1, by simp, Nat.le_refl _, .of_nil, ?_⟩
      rw [siblingsBehind_nil]
      exact .refl _ _
    | cons us parts =>
      obtain ⟨hus, hrest⟩ := List.forall_mem_cons.mp hparts
      rw [List.flatten_cons, List.length_append] at hlt ⊢
      have hbody : (phrase .commands).Matches parts.flatten :=
        matches_phrase.mpr (matches_many.mpr ⟨parts, rfl, hrest⟩)
      rcases matches_either.mp hus with hus | hus
      · obtain ⟨tok, htok, rfl⟩ := matches_token.mp hus
        rw [List.length_singleton] at hlt ⊢
        obtain ⟨cs, left, hleft, hle, hends, hpass⟩ :=
          siblings_passes place budget hbody (by omega)
        refine ⟨.data tok.text :: cs, left, by omega, by omega,
          hends.behind (by simp) (by simp), ?_⟩
        rw [← siblingsBehind_cons]
        exact Passes.trans (siblings_passes_data place budget htok) (.bind hpass)
          fun _ _ => trivial
      · have hlast := getLast?_of_command hus
        obtain ⟨o, ws, ho, rfl, hws⟩ := matches_token_both.mp (matches_phrase.mp hus)
        rw [List.length_cons] at hlt ⊢
        obtain ⟨kw, us, rfl, hk, hc⟩ : CompletesTag place _ budget ws :=
          keyworded_of_matches (CompletesBody.marked (siblings_takes place budget)) hws (by omega)
        obtain ⟨c, hc⟩ := hc o ho
        obtain ⟨cs, left, hleft, hle, hends, hpass⟩ :=
          siblings_passes place budget hbody (by omega)
        refine ⟨c :: cs, left, by omega, by omega, hends.behind (by simp) ?_, ?_⟩
        · intro tok htok hdata
          rw [Option.mem_def.mp htok, Option.map_some, Option.some.injEq, hdata] at hlast
          cases hlast
        · rw [← siblingsBehind_cons]
          exact siblings_passes_command ho hk hc hpass

/-- What takes a body passes over it to what stands behind. -/
theorem siblings_passes_of_takes {place : Nat → Position} {budget : Nat} {ts : List Token}
    {cs : List Command} (hm : (phrase .commands).Matches ts) (hlt : ts.length < budget)
    (h : (siblings place budget).Takes ts cs BodyEnds) : ∃ left, budget ≤ left + ts.length ∧
      left ≤ budget ∧ EndsLike ts cs ∧
        (siblings place budget).Passes ts (siblingsBehind place cs left) anyRest := by
  obtain ⟨cs', left, hleft, hle, hends, hpass⟩ := siblings_passes place budget hm hlt
  -- both give their commands where the end comes next
  have hend : BodyEnds [Token.atEnd 0] := .inl ⟨_, [], rfl, rfl⟩
  obtain ⟨left', rfl⟩ : ∃ n, left = n + 1 := ⟨left - 1, by omega⟩
  have hcs := (h _ hend).symm.trans (hpass _ trivial)
  rw [siblingsBehind, feed_bind, ← List.nil_append [Token.atEnd 0],
    siblings_end place left' _ hend] at hcs
  obtain rfl : cs = cs' := by simpa [feed, Fed.andThen] using hcs
  exact ⟨_, hleft, hle, hends, hpass⟩

/-- A body of tokens that are alike is taken for a tree that is alike. -/
theorem siblings_takes_alike {R : Token → Token → Prop} {f g : Position → Position}
    {place place' : Nat → Position} (hR : Likewise R f g place place') {budget budget' : Nat}
    (hle : budget ≤ budget') {us us' : List Token} {cs : List Command}
    (hm : (phrase .commands).Matches us) (h : (siblings place budget).Takes us cs BodyEnds)
    (hus : List.Forall₂ R us us') (hlt : us.length < budget') (last : Token)
    {last' : Token} (hlast : R last last') (hk : last.kind = .eof) :
    ∃ cs', (siblings place' budget').Takes us' cs' BodyEnds ∧ Command.AlikeAll f g cs cs' := by
  have hm' : (phrase .commands).Matches us' := by
    rw [Form.Matches, ← hR.kinds.map_kind hus]
    exact hm
  obtain ⟨cs', hcs'⟩ := siblings_takes place' budget' us' hm' (hus.length_eq ▸ hlt)
  refine ⟨cs', hcs', ?_⟩
  have halike := siblings_alike hR hle (us ++ [last]) (us' ++ [last'])
    (List.rel_append hus (.cons hlast .nil))
  rw [h _ (.inl ⟨last, [], rfl, hk⟩),
    hcs' _ (.inl ⟨last', [], rfl, hR.kinds _ _ hlast ▸ hk⟩)] at halike
  cases halike with
  | gave hcs _ => exact hcs

end Script
end ClearSilver
