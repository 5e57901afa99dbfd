/-
# What a block encloses

A block is its head, what it encloses and its close tag. The command it is read
as depends on what it encloses by that body alone: whatever body stands between
the head and the close tag, the rest of the command stays the same
(`Script.Encloses`). An `if` tag is such a block where no other branch follows,
and any other branch begins with a tag of its own
(`Script.exists_encloses`).

Key definitions: `Command.body?`, `Command.withBody`, `Script.Encloses`,
`Script.Blocks`.
Key theorems: `Script.Encloses.block`, `Script.Encloses.conditional`,
`Script.exists_encloses`, `Script.opensBlock_of_body`.
-/
import ClearSilver.Block
import ClearSilver.Proofs.Parser.Siblings

namespace ClearSilver

namespace Command

/-- What a block encloses; for an `if` tag what its first branch does. -/
def body? : Command → Option Command
  | .wrap _ _ _ body | .bind _ _ _ _ body | .loop _ _ _ body | .define _ _ _ body
  | .ifElse _ _ body _ | .inline _ body => some body
  | _ => none

/-- The same block around another body. -/
def withBody : Command → Command → Command
  | .wrap form position expression _, body => .wrap form position expression body
  | .bind form position target expression _, body => .bind form position target expression body
  | .loop position target bounds _, body => .loop position target bounds body
  | .define position called parameters _, body => .define position called parameters body
  | .ifElse position condition _ otherwise, body => .ifElse position condition body otherwise
  | .inline position _, body => .inline position body
  | c, _ => c

end Command

namespace Script

open Form

variable {α β γ : Type} {k : Keyword} {openTag keyword : Token} {us ts : List Token}

/-! ### Heads that do not depend on the budget -/

/-- A script that goes the same way takes the same tokens. -/
theorem Takes.of_alike {s s' : Script α} {a : α} {stop : List Token → Prop}
    (h : s.Takes us a stop) (halike : Alike Eq Eq s s') : s'.Takes us a stop := by
  intro rest hrest
  have hfed := halike (us ++ rest) (us ++ rest) (List.forall₂_same.mpr fun _ _ => rfl)
  rw [h rest hrest] at hfed
  generalize s'.feed (us ++ rest) = fed at hfed
  cases hfed with
  | gave hresult hleft =>
    rw [List.forall₂_eq_eq_eq] at hleft
    rw [← hresult, ← hleft]
    rfl

/-- What a head gives for its tokens is the same for every budget. -/
theorem takes_every_budget {head : Nat → Script α}
    (htakes : ∀ budget, us.length ≤ budget → ∃ x, (head budget).Takes us x anyRest)
    (halike : ∀ budget budget', budget ≤ budget' → Alike Eq Eq (head budget) (head budget')) :
    ∃ x, ∀ budget, us.length ≤ budget → (head budget).Takes us x anyRest := by
  obtain ⟨x, hx⟩ := htakes us.length (Nat.le_refl _)
  exact ⟨x, fun budget hle => hx.of_alike (halike _ _ hle)⟩

theorem headedTag_every (keyword : Token) (h : headed.Matches us) :
    ∃ e, ∀ budget, us.length ≤ budget → (headedTag budget keyword).Takes us e anyRest :=
  takes_every_budget (fun _ hle => headedTag_of_matches h hle keyword) fun _ _ hle =>
    headedTag_alike (likewise_refl fun _ => ⟨0, 0, 0⟩) hle rfl

theorem bindingTag_every (keyword : Token) (h : (tagRest binding).Matches us) :
    ∃ p, ∀ budget, us.length ≤ budget → (bindingTag budget keyword).Takes us p anyRest :=
  takes_every_budget (fun _ hle => bindingTag_of_matches h hle keyword) fun _ _ hle =>
    bindingTag_alike (likewise_refl fun _ => ⟨0, 0, 0⟩) hle rfl

theorem loopHead_every (keyword : Token) (h : (tagRest loopArguments).Matches us) :
    ∃ p, ∀ budget, us.length ≤ budget → (loopHead budget keyword).Takes us p anyRest :=
  takes_every_budget (fun _ hle => loopHead_of_matches h hle keyword) fun _ _ hle =>
    loopHead_alike (likewise_refl fun _ => ⟨0, 0, 0⟩) hle rfl

theorem defineHead_every (keyword : Token) (h : (tagRest defineArguments).Matches us) :
    ∃ p, ∀ budget, us.length ≤ budget → (defineHead budget keyword).Takes us p anyRest :=
  takes_every_budget (fun _ hle => defineHead_of_matches h hle keyword) fun _ _ hle =>
    defineHead_alike (likewise_refl fun _ => ⟨0, 0, 0⟩) hle rfl

theorem endTag_every (h : (token .tagClose).Matches us) :
    ∃ x, ∀ budget : Nat, us.length ≤ budget → endTag.Takes us x anyRest := by
  obtain ⟨last, hlast, rfl⟩ := matches_token.mp h
  exact ⟨(), fun _ _ => endTag_takes hlast⟩

/-! ### Blocks around any body -/

/-- Is a tag with this head, around any body, the command that `build` makes of
its position and the body? -/
structure Encloses (k : Keyword) (openTag keyword : Token) (head : List Token)
    (build : Position → Command → Command) : Prop where
  takes : ∀ place budget {ws cs cl}, (head ++ (ws ++ cl)).length ≤ budget →
    (siblings place budget).Takes ws cs BodyEnds → (phrase (.close k)).Matches cl →
      (command place budget).Takes (openTag :: keyword :: (head ++ (ws ++ cl)))
        (build (place openTag.offset) (.ofList cs)) anyRest
  body : ∀ position c, (build position c).body? = some c
  withBody : ∀ position c c', (build position c).withBody c' = build position c'

section

variable (ho : openTag.kind = .tagOpen)
include ho

/-- **A block** encloses what stands between its head and its close tag. -/
theorem Encloses.block (hk : keyword.kind = .keyword k) {s : Nat → Token → Script γ}
    {e : Position → γ → Command → Command}
    (ht : ∀ place budget, tag? place (commands place budget) budget openTag keyword =
      some ((s budget keyword).bind fun x =>
        (enclosed (commands place budget) openTag keyword).bind fun c =>
          done (e (place openTag.offset) x c)))
    (hbody : ∀ p x c, (e p x c).body? = some c)
    (hwith : ∀ p x c c', (e p x c).withBody c' = e p x c')
    (hhead : ∃ x, ∀ budget, us.length ≤ budget → (s budget keyword).Takes us x anyRest) :
    ∃ build, Encloses k openTag keyword us build := by
  obtain ⟨x, hx⟩ := hhead
  refine ⟨fun p => e p x, fun place budget ws cs cl hlen hws hcl => ?_, fun p => hbody p x,
    fun p => hwith p x⟩
  rw [List.length_append] at hlen
  exact takes_block ho (ht place budget) (hx budget (by omega))
    (enclosed_takes (marked_takes hws) hk hcl)

/-- An `if` tag with no other branch is a block. -/
theorem Encloses.conditional (hk : keyword.kind = .keyword .ifTag) (h : headed.Matches us) :
    ∃ build, Encloses .ifTag openTag keyword us build := by
  obtain ⟨e, he⟩ := headedTag_every keyword h
  refine ⟨fun p c => .ifElse p e c .noop, fun place budget ws cs cl hlen hws hcl => ?_,
    fun _ _ => rfl, fun _ _ _ => rfl⟩
  obtain ⟨_, _, _, _, hcl', -⟩ := matches_close hcl
  simp only [List.length_append, hcl', List.length_cons] at hlen
  obtain ⟨n, rfl⟩ : ∃ n, budget = n + 1 := ⟨budget - 1, by omega⟩
  have hbranches : (branches place (commands place (n + 1)) (expression (n + 1)) (n + 1) openTag
      keyword).Takes (us ++ ws) [⟨place openTag.offset, e, .ofList cs⟩] _ :=
    branches_last (he (n + 1) (by omega)) (marked_takes hws) n
  have htakes := takes_if ho hk hbranches elseBranch_none (.inl rfl) hcl
  rwa [List.nil_append, List.append_assoc] at htakes

/-! ### Which commands are blocks -/

/-- Are these tokens behind a keyword a block of it, with what may be other
branches before its close tag? -/
def Blocks (openTag keyword : Token) (ts : List Token) : Prop :=
  ∃ k us ws others cl build, keyword.kind = .keyword k ∧ ts = us ++ (ws ++ (others ++ cl)) ∧
    us.getLast?.map (·.kind) = some .tagClose ∧ (phrase .commands).Matches ws ∧
    (others = [] ∨ ∃ t ∈ others, t.kind = .tagOpen) ∧ (phrase (.close k)).Matches cl ∧
    Encloses k openTag keyword us build

omit ho in
/-- A block behind its keyword. -/
theorem blocks_of_matches {head : Form} (hends : head.endsTag = true)
    (h : (Form.block k (both (Form.keyword k) head)).Matches (keyword :: ts))
    (hhead : ∀ us, keyword.kind = .keyword k → head.Matches us →
      ∃ build, Encloses k openTag keyword us build) : Blocks openTag keyword ts := by
  obtain ⟨hs, xs, hts, hhs, hxs⟩ := matches_both.mp h
  obtain ⟨kw, us, hk, rfl, hus⟩ := matches_token_both.mp hhs
  obtain ⟨rfl, rfl⟩ := List.cons_eq_cons.mp hts
  obtain ⟨ws, cl, rfl, hws, hcl⟩ := matches_both.mp hxs
  obtain ⟨build, hbuild⟩ := hhead us hk hus
  exact ⟨k, us, ws, [], cl, build, hk, rfl, getLast?_of_endsTag hends hus, hws, .inl rfl, hcl,
    hbuild⟩

theorem blocks_of_if (h : (sequence [tag .ifTag [Form.expression], phrase .commands,
    many elseIfBranch, optional (sequence [token .tagOpen, Form.keyword .elseTag,
      token .tagClose, phrase .commands]), phrase (.close .ifTag)]).Matches (keyword :: ts)) :
    Blocks openTag keyword ts := by
  obtain ⟨hs, xs, hts, hhs, hxs⟩ := matches_both.mp h
  obtain ⟨kw, us, hk, rfl, hus⟩ := matches_token_both.mp hhs
  obtain ⟨rfl, rfl⟩ := List.cons_eq_cons.mp hts
  obtain ⟨ws, ys, rfl, hws, hys⟩ := matches_both.mp hxs
  obtain ⟨ps, zs, rfl, hps, hzs⟩ := matches_both.mp hys
  obtain ⟨es, cl, rfl, hes, hcl⟩ := matches_both.mp hzs
  obtain ⟨build, hbuild⟩ := Encloses.conditional ho hk hus
  refine ⟨.ifTag, us, ws, ps ++ es, cl, build, hk, by simp, getLast?_of_endsTag rfl hus, hws, ?_,
    hcl, hbuild⟩
  -- each of the other branches begins with a tag
  rcases matches_either.mp hes with hes | hes
  · obtain ⟨o, _, ho', rfl, -⟩ := matches_token_both.mp hes
    exact .inr ⟨o, by simp, ho'⟩
  · obtain rfl := matches_empty.mp hes
    rw [List.append_nil]
    obtain ⟨parts, rfl, hparts⟩ := matches_many.mp hps
    cases parts with
    | nil => exact .inl rfl
    | cons part parts =>
      obtain ⟨o, _, ho', rfl, -⟩ := matches_token_both.mp (hparts part List.mem_cons_self)
      exact .inr ⟨o, by simp, ho'⟩

omit ho in
theorem keyword_of_tag {k₀ : Keyword} {f : Form}
    (h : (both (Form.keyword k₀) f).Matches (keyword :: ts)) (hk : keyword.kind = .keyword k) :
    k = k₀ := by
  obtain ⟨kw, us, hkw, hts, -⟩ := matches_token_both.mp h
  obtain ⟨rfl, rfl⟩ := List.cons_eq_cons.mp hts
  exact Token.Kind.keyword.inj (hk.symm.trans hkw)

/-- **A command whose keyword opens a block** is a block of it. -/
theorem exists_encloses (h : keyworded.Matches (keyword :: ts)) (hk : keyword.kind = .keyword k)
    (hopens : k.opensBlock = true) : Blocks openTag keyword ts := by
  -- no other tag begins with the keyword of a block
  have hplain : ∀ {k₀ : Keyword} {f : Form},
      (both (Form.keyword k₀) f).Matches (keyword :: ts) → k₀.opensBlock = false →
        Blocks openTag keyword ts := by
    intro k₀ f h hfalse
    rw [keyword_of_tag h hk, hfalse] at hopens
    cases hopens
  have hwrap (form : WrapForm)
      (h : (block form.keyword (tag form.keyword [Form.expression])).Matches (keyword :: ts)) :
      Blocks openTag keyword ts :=
    blocks_of_matches rfl h fun us hk hus => Encloses.block ho hk (e := .wrap form)
      (fun _ _ => tag?_wrap form hk) (fun _ _ _ => rfl) (fun _ _ _ _ => rfl)
      (headedTag_every keyword hus)
  have hbind (form : BindForm)
      (h : (block form.keyword (tag form.keyword binding)).Matches (keyword :: ts)) :
      Blocks openTag keyword ts :=
    blocks_of_matches rfl h fun us hk hus =>
      Encloses.block ho hk (e := fun p x => .bind form p x.1 x.2)
      (fun _ _ => tag?_bind form hk) (fun _ _ _ => rfl) (fun _ _ _ _ => rfl)
      (bindingTag_every keyword hus)
  rcases (matches_anyOf _ _).mp h with h | ⟨f, hf, h⟩
  · obtain ⟨kw, us, hkw, hts, -⟩ := matches_token_both.mp h
    obtain ⟨rfl, rfl⟩ := List.cons_eq_cons.mp hts
    rw [hk] at hkw
    cases hkw
  simp only [commandForms, List.mem_cons, List.not_mem_nil, or_false] at hf
  rcases hf with rfl | rfl | rfl | rfl | rfl | rfl | rfl | rfl | rfl | rfl | rfl | rfl | rfl |
    rfl | rfl | rfl | rfl | rfl
  · exact hplain h rfl
  · exact hplain h rfl
  · exact hplain h rfl
  · exact hplain h rfl
  · exact hplain h rfl
  · exact hplain h rfl
  · exact hwrap .escape h
  · exact hwrap .autoescape h
  · exact hwrap .alt h
  · exact hbind .scope h
  · exact hbind .each h
  · exact blocks_of_matches rfl h fun us hk hus =>
      Encloses.block ho hk (e := fun p x => .loop p x.1 x.2)
      (fun _ _ => tag?_loop hk) (fun _ _ _ => rfl) (fun _ _ _ _ => rfl) (loopHead_every keyword hus)
  · exact blocks_of_matches rfl h fun us hk hus =>
      Encloses.block ho hk (e := fun p x => .define p x.1 x.2)
      (fun _ _ => tag?_define hk) (fun _ _ _ => rfl) (fun _ _ _ _ => rfl)
      (defineHead_every keyword hus)
  · exact hplain h rfl
  · obtain ⟨hs, xs, hts, hhs, -⟩ := matches_both.mp h
    rcases matches_either.mp hhs with hhs | hhs <;>
      obtain ⟨kw, hkw, rfl⟩ := matches_token.mp hhs <;>
      obtain ⟨rfl, rfl⟩ := List.cons_eq_cons.mp hts <;>
      obtain rfl := Token.Kind.keyword.inj (hk.symm.trans hkw) <;>
      cases hopens
  · exact hplain h rfl
  · exact blocks_of_matches rfl h fun us hk hus => Encloses.block ho hk (s := fun _ _ => endTag)
      (e := fun p _ => .inline p) (fun _ _ => tag?_inline hk) (fun _ _ _ => rfl)
      (fun _ _ _ _ => rfl) (endTag_every hus)
  · exact blocks_of_if ho h

end

/-! ### Commands with a body -/

/-- Is every result of the script like this? -/
def Gives (P : α → Prop) (s : Script α) : Prop := ∀ ts a rest, s.feed ts = .gave a rest → P a

theorem Gives.done {P : α → Prop} {a : α} (h : P a) : (Script.done a).Gives P := by
  intro ts b rest hb
  cases hb
  exact h

theorem Gives.bind {P : β → Prop} {s : Script α} {f : α → Script β} (h : ∀ a, (f a).Gives P) :
    (s.bind f).Gives P := by
  intro ts b rest hb
  obtain ⟨a, rest', -, hf⟩ := gave_of_bind hb
  exact h a _ _ _ hf

/-- A tag that is no block gives a command without a body. -/
theorem tag?_gives {place : Nat → Position} {body : Script (List Command)} {budget : Nat}
    {rest : Script Command} (ht : tag? place body budget openTag keyword = some rest)
    (hk : ¬ ∃ k : Keyword, keyword.kind = .keyword k ∧ k.opensBlock = true) :
    rest.Gives (·.body? = none) := by
  unfold tag? at ht
  split at ht <;> try exact absurd ⟨_, ‹_›, rfl⟩ hk
  all_goals
    cases ht
    repeat first
      | exact .done rfl
      | refine .bind fun _ => ?_

/-- **A command with a body** begins with a keyword that opens a block. -/
theorem opensBlock_of_body {place : Nat → Position} {budget : Nat} {c : Command}
    {rest : List Token} (ho : openTag.kind = .tagOpen)
    (h : (command place budget).feed (openTag :: keyword :: ts) = .gave c rest)
    (hc : c.body? ≠ none) : ∃ k : Keyword, keyword.kind = .keyword k ∧ k.opensBlock = true := by
  by_contra hk
  cases ht : tag? place (commands place budget) budget openTag keyword with
  | none =>
    have hpass : (command place budget).Passes [openTag, keyword]
        (reject .commandKeyword keyword) anyRest :=
      Takes.cons (takes_expect .tagOpen ho) (.advance (by rw [ht]; exact .refl _ _))
    cases (hpass ts trivial).symm.trans h
  | some s =>
    have hpass := commandOver_passes ho ht ts trivial
    exact hc (tag?_gives ht hk _ _ _ (hpass.symm.trans h))

/-! ### Bodies of one command -/

theorem Takes.unique {s : Script α} {a b : α} {p q : List Token → Prop} (h : s.Takes us a p)
    (h' : s.Takes us b q) (rest : List Token) (hp : p rest) (hq : q rest) : a = b :=
  (Fed.gave.inj ((h rest hp).symm.trans (h' rest hq))).1

/-- **A body that is taken as one command** is the tokens of that command. -/
theorem command_of_takes {place : Nat → Position} {budget : Nat} {c : Command}
    (hm : (phrase .commands).Matches us) (hlt : us.length < budget + 1)
    (h : (siblings place (budget + 1)).Takes us [c] BodyEnds) (hc : c.isData = false) :
    (phrase .command).Matches us ∧ (command place budget).Takes us c anyRest := by
  have hend : BodyEnds [Token.atEnd 0] := .inl ⟨_, [], rfl, rfl⟩
  obtain ⟨-, -, -, hnil, -⟩ := siblings_passes_of_takes hm hlt h
  obtain ⟨parts, rfl, hparts⟩ := matches_many.mp (matches_phrase.mp hm)
  cases parts with
  | nil => cases hnil.nil.mp rfl
  | cons us parts =>
    obtain ⟨hus, hrest⟩ := List.forall_mem_cons.mp hparts
    rw [List.flatten_cons] at hlt h ⊢
    rw [List.length_append] at hlt
    have hbody : (phrase .commands).Matches parts.flatten :=
      matches_phrase.mpr (matches_many.mpr ⟨parts, rfl, hrest⟩)
    rcases matches_either.mp hus with hus | hus
    · obtain ⟨tok, htok, rfl⟩ := matches_token.mp hus
      rw [List.length_singleton] at hlt
      obtain ⟨cs, hcs⟩ := siblings_takes place budget _ hbody (by omega)
      have hdata := (siblings_data htok hcs).unique h _ hend hend
      rw [← List.head_eq_of_cons_eq hdata] at hc
      cases hc
    · obtain ⟨o, ws, ho, rfl, hws⟩ := matches_token_both.mp (matches_phrase.mp hus)
      rw [List.length_cons] at hlt
      obtain ⟨kw, us, rfl, hk, hcommand⟩ : CompletesTag place _ budget ws :=
        keyworded_of_matches (CompletesBody.marked (siblings_takes place budget)) hws (by omega)
      obtain ⟨c', hc'⟩ := hcommand o ho
      obtain ⟨cs, hcs⟩ := siblings_takes place budget _ hbody (by omega)
      obtain ⟨rfl, rfl⟩ :=
        List.cons_eq_cons.mp ((siblings_command ho hk hc' hcs).unique h _ hend hend)
      obtain ⟨-, -, -, hnone, -⟩ := siblings_passes_of_takes hbody (by omega) hcs
      rw [hnone.nil.mpr rfl, List.append_nil]
      exact ⟨hus, hc'⟩

end Script
end ClearSilver
