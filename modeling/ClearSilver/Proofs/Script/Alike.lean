/-
# Scripts that go the same way

Two scripts are alike for a relation of tokens if, fed with related tokens,
they end in the same way: with related results and related tokens left, with
related faults, or both waiting (`Script.Alike`). A script whose budget is
spent is alike to any other one, so the second of two scripts may have the
greater budget. The rules follow the requests; where a token is looked at, its
kind is all that decides, so related tokens have to be of one kind
(`SameKinds`). Alike scripts have alike runs over sources whose tokens are
related (`Script.Fed.Alike.run`).

Key definitions: `Fault.Alike`, `Script.Fed.Alike`, `Script.Alike`, `SameKinds`,
`Script.OutcomesAlike`.
Key theorems: `Script.Alike.bind`, `Script.Alike.expect`, `Script.Alike.accept`,
`Script.Alike.look`, `Script.Fed.Alike.run`.
-/
import ClearSilver.Proofs.Script.Feed
import Mathlib.Data.List.Forall2

namespace ClearSilver

/-! ### Related ends -/

/-- The same expectation, about the keyword of related tokens. -/
inductive Expectation.Alike (R : Token → Token → Prop) : Expectation → Expectation → Prop
  | same (expected : Expectation) : Alike R expected expected
  | delimiterAfter {t t' : Token} (h : R t t') :
      Alike R (.delimiterAfter t.text) (.delimiterAfter t'.text)
  | closeOf {t t' : Token} (h : R t t') : Alike R (.closeOf t.text) (.closeOf t'.text)

/-- The same fault, about related tokens. -/
inductive Fault.Alike (R : Token → Token → Prop) : Fault → Fault → Prop
  | unexpected {expected expected' : Expectation} {found found' : Token}
      (he : expected.Alike R expected') (hf : R found found') :
      Alike R (.unexpected expected found) (.unexpected expected' found')
  | unclosed {keyword keyword' openTag openTag' : Token} (hk : R keyword keyword')
      (ho : R openTag openTag') :
      Alike R (.unclosed keyword openTag) (.unclosed keyword' openTag')

theorem Expectation.Alike.eq {expected expected' : Expectation} (h : expected.Alike Eq expected') :
    expected = expected' := by
  cases h with
  | same _ => rfl
  | delimiterAfter h | closeOf h => rw [h]

/-- The same fault about the same tokens is one fault. -/
theorem Fault.Alike.eq {fault fault' : Fault} (h : fault.Alike Eq fault') : fault = fault' := by
  cases h with
  | unexpected he hf => rw [he.eq, hf]
  | unclosed hk ho => rw [hk, ho]

/-- Are related tokens of one kind? -/
def SameKinds (R : Token → Token → Prop) : Prop := ∀ t t', R t t' → t.kind = t'.kind

theorem SameKinds.map_kind {R : Token → Token → Prop} (hR : SameKinds R) {us us' : List Token}
    (h : List.Forall₂ R us us') : us.map (·.kind) = us'.map (·.kind) := by
  induction h with
  | nil => rfl
  | cons ht _ ih => exact congrArg₂ List.cons (hR _ _ ht) ih

namespace Script

variable {α β γ δ : Type}

/-- Two scripts that end in the same way, or a budget that is spent. -/
inductive Fed.Alike (R : Token → Token → Prop) (Q : α → β → Prop) : Fed α → Fed β → Prop
  | gave {a : α} {b : β} {rest rest' : List Token} (hQ : Q a b)
      (hrest : List.Forall₂ R rest rest') : Alike R Q (.gave a rest) (.gave b rest')
  | failed {fault fault' : Fault} (hf : fault.Alike R fault') :
      Alike R Q (.failed fault) (.failed fault')
  | exhausted (fed : Fed β) : Alike R Q (.failed .exhausted) fed
  | waiting : Alike R Q .waiting .waiting

/-- Do the scripts end in the same way on related tokens? -/
def Alike (R : Token → Token → Prop) (Q : α → β → Prop) (s : Script α) (s' : Script β) : Prop :=
  ∀ ts ts', List.Forall₂ R ts ts' → (s.feed ts).Alike R Q (s'.feed ts')

variable {R : Token → Token → Prop} {Q : α → β → Prop} {S : γ → δ → Prop}
  {s : Script α} {s' : Script β} {k : α → Script γ} {k' : β → Script δ}

/-- What comes behind two scripts that end in the same way. -/
theorem Fed.Alike.andThen {fed : Fed α} {fed' : Fed β} {f : α → List Token → Fed γ}
    {f' : β → List Token → Fed δ} (h : fed.Alike R Q fed')
    (hf : ∀ a b rest rest', Q a b → List.Forall₂ R rest rest' →
      (f a rest).Alike R S (f' b rest')) : (fed.andThen f).Alike R S (fed'.andThen f') := by
  cases h with
  | gave hQ hrest => exact hf _ _ _ _ hQ hrest
  | failed hf => exact .failed hf
  | exhausted _ => exact .exhausted _
  | waiting => exact .waiting

namespace Alike

/-! ### Scripts in a row -/

theorem done {a : α} {b : β} (hQ : Q a b) : Alike R Q (.done a) (.done b) :=
  fun _ _ hts => .gave hQ hts

theorem exhausted (s' : Script β) : Alike R Q (.fail .exhausted) s' :=
  fun _ ts' _ => .exhausted (s'.feed ts')

theorem fail {fault fault' : Fault} (hf : fault.Alike R fault') :
    Alike R Q (.fail fault) (.fail fault') :=
  fun _ _ _ => .failed hf

theorem reject {expected expected' : Expectation} {found found' : Token}
    (he : expected.Alike R expected') (hf : R found found') :
    Alike R Q (.reject expected found) (.reject expected' found') :=
  .fail (.unexpected he hf)

theorem note {event event' : Event} (h : Alike R Q s s') :
    Alike R Q (.note event s) (.note event' s') := h

theorem bind (hs : Alike R Q s s') (hk : ∀ a b, Q a b → Alike R S (k a) (k' b)) :
    Alike R S (s.bind k) (s'.bind k') := by
  intro ts ts' hts
  rw [feed_bind, feed_bind]
  exact (hs ts ts' hts).andThen fun a b rest rest' hQ hrest => hk a b hQ rest rest' hrest

/-- The results of two scripts, changed. -/
theorem map {e : α → γ} {e' : β → δ} (hs : Alike R Q s s') (hS : ∀ a b, Q a b → S (e a) (e' b)) :
    Alike R S (s.bind fun a => .done (e a)) (s'.bind fun b => .done (e' b)) :=
  .bind hs fun a b hQ => .done (hS a b hQ)

/-- Scripts in a row whose first ones give the same. -/
theorem bind_same {s s' : Script α} {k : α → Script γ} {k' : α → Script δ} (hs : Alike R Eq s s')
    (hk : ∀ a, Alike R S (k a) (k' a)) : Alike R S (s.bind k) (s'.bind k') :=
  .bind hs fun a _ h => h ▸ hk a

/-- The same results, changed in the same way. -/
theorem map_same {s s' : Script α} {e : α → γ} (hs : Alike R Eq s s') :
    Alike R Eq (s.bind fun a => .done (e a)) (s'.bind fun a => .done (e a)) :=
  .bind_same hs fun _ => .done rfl

/-! ### Requests -/

theorem look {next : Token → Script γ} {next' : Token → Script δ}
    (hk : ∀ t t', R t t' → Alike R S (next t) (next' t')) (ahead : Nat) :
    Alike R S (.look ahead next) (.look ahead next') := by
  intro ts ts' hts
  rw [feed, feed]
  have hlen := hts.length_eq
  by_cases hlt : ahead < ts.length
  · have hlt' : ahead < ts'.length := hlen ▸ hlt
    rw [List.getElem?_eq_getElem hlt, List.getElem?_eq_getElem hlt']
    exact hk _ _ (List.Forall₂.get hts hlt hlt') ts ts' hts
  · rw [List.getElem?_eq_none (Nat.le_of_not_lt hlt),
      List.getElem?_eq_none (hlen ▸ Nat.le_of_not_lt hlt)]
    exact .waiting

theorem peek {k : Token → Script γ} {k' : Token → Script δ}
    (hk : ∀ t t', R t t' → Alike R S (k t) (k' t')) (ahead : Nat) :
    Alike R S ((Script.peek ahead).bind k) ((Script.peek ahead).bind k') := .look hk ahead

/-- The next token is taken, whatever it is. -/
theorem advance_then {k : Token → Script γ} {k' : Token → Script δ}
    (hk : ∀ t t', R t t' → Alike R S (k t) (k' t')) :
    Alike R S (Script.advance.bind k) (Script.advance.bind k') := by
  intro ts ts' hts
  cases hts with
  | nil => exact .waiting
  | cons ht hrest => exact hk _ _ ht _ _ hrest

variable (hR : SameKinds R)
include hR

/-- A question about the next token. -/
theorem ask {kinds : List Token.Kind} {k : Bool → Script γ} {k' : Bool → Script δ}
    (hk : ∀ b, Alike R S (k b) (k' b)) :
    Alike R S ((at? kinds).bind k) ((at? kinds).bind k') := by
  refine .look (fun t t' h => ?_) 0
  change Alike R S (k (kinds.contains t.kind)) (k' (kinds.contains t'.kind))
  rw [hR t t' h]
  exact hk _

/-- A token of some kinds is taken if one stands there. -/
theorem accept {kinds : List Token.Kind} {k : Option Token → Script γ}
    {k' : Option Token → Script δ}
    (hsome : ∀ t t', R t t' → t.kind ∈ kinds → Alike R S (k (some t)) (k' (some t')))
    (hnone : Alike R S (k none) (k' none)) :
    Alike R S ((Script.accept kinds).bind k) ((Script.accept kinds).bind k') := by
  intro ts ts' hts
  cases hts with
  | nil => exact .waiting
  | @cons t t' rest rest' ht hrest =>
    rw [feed_accept, feed_accept, ← hR t t' ht]
    by_cases hkind : t.kind ∈ kinds
    · rw [if_pos hkind, if_pos hkind]
      exact hsome t t' ht hkind rest rest' hrest
    · rw [if_neg hkind, if_neg hkind]
      exact hnone _ _ (.cons ht hrest)

/-- The next token is taken if it is of the kind that is expected. -/
theorem expect (kind : Token.Kind) {expected expected' : Expectation}
    (he : expected.Alike R expected') :
    Alike R (fun t t' => R t t' ∧ t.kind = kind) (Script.expect kind expected)
      (Script.expect kind expected') := by
  refine fun ts ts' hts => ?_
  cases hts with
  | nil => exact .waiting
  | @cons t t' rest rest' ht hrest =>
    simp only [Script.expect, feed, List.getElem?_cons_zero, ← hR t t' ht]
    by_cases hkind : t.kind = kind
    · rw [if_pos hkind, if_pos hkind]
      exact .gave ⟨ht, hkind⟩ hrest
    · rw [if_neg hkind, if_neg hkind]
      exact .failed (.unexpected he ht)

end Alike

/-! ### Runs -/

/-- Two runs that end in the same way: with related results, with related
faults, or stopped by related faults of their sources. -/
inductive OutcomesAlike (R : Token → Token → Prop) (Q : α → β → Prop)
    (F : LexicalFault → LexicalFault → Prop) : Except Fault α → Except Fault β → Prop
  | gave {a : α} {b : β} (hQ : Q a b) : OutcomesAlike R Q F (.ok a) (.ok b)
  | failed {fault fault' : Fault} (hf : fault.Alike R fault') :
      OutcomesAlike R Q F (.error fault) (.error fault')
  | stopped {fault fault' : LexicalFault} (hF : F fault fault') :
      OutcomesAlike R Q F (.error (.lexical fault)) (.error (.lexical fault'))

/-- **Alike scripts have alike runs**, where the budget of the first is not
spent and the sources stop both if they stop one. -/
theorem Fed.Alike.run {σ τ : Type} [TokenSource σ] [TokenSource τ] {start src : σ} {start' src' : τ}
    {ts ts' : List Token} {F : LexicalFault → LexicalFault → Prop}
    (h : (s.feed ts).Alike R Q (s'.feed ts')) (hp : Pulls start ts src)
    (hp' : Pulls start' ts' src')
    (hlasts : s.feed ts ≠ .failed .exhausted)
    (hstops : s.feed ts = .waiting → ∃ fault fault' last last', F fault fault' ∧
      TokenSource.pull src = (.error fault, last) ∧
        TokenSource.pull src' = (.error fault', last')) :
    OutcomesAlike R Q F (s.run (.start start)).outcome (s'.run (.start start')).outcome := by
  generalize hfed : s.feed ts = fed at h hlasts hstops
  generalize hfed' : s'.feed ts' = fed' at h
  have hrun := fun o => run_outcome (s := s) (l := .start start) (o := o) hp
  have hrun' := fun o => run_outcome (s := s') (l := .start start') (o := o) hp'
  cases h with
  | gave hQ _ =>
    rw [hrun _ (congrArg Fed.outcome? hfed), hrun' _ (congrArg Fed.outcome? hfed')]
    exact .gave hQ
  | failed hf =>
    rw [hrun _ (congrArg Fed.outcome? hfed), hrun' _ (congrArg Fed.outcome? hfed')]
    exact .failed hf
  | exhausted _ => exact absurd rfl hlasts
  | waiting =>
    obtain ⟨fault, fault', last, last', hF, hn, hn'⟩ := hstops rfl
    rw [run_waiting (l := .start start) hp hn hfed, run_waiting (l := .start start') hp' hn' hfed']
    exact .stopped hF

end Script
end ClearSilver
