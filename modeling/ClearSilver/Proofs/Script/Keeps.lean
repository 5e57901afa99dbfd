/-
# What a script keeps of its tokens

A script keeps a relation if, fed with any tokens, what it takes stands in the
relation to what it gives (`Script.Keeps`). Nothing is said of how it stops
otherwise, but for one fault: a script that can leave no block open never says
that one is. The rules follow the requests, and a relation of the tokens of
several scripts in a row is put together from the relations of each.

Key definitions: `Script.Fed.Keeps`, `Script.Keeps`, `Script.KeepsAt`.
Key theorems: `Script.Keeps.bind`, `Script.Keeps.expect`, `Script.Keeps.accept`,
`Script.KeepsAt.advance`, `Script.Keeps.used`.
-/
import ClearSilver.Proofs.Script.Feed

namespace ClearSilver

namespace Script

variable {α β : Type}

/-- How a script ends on these tokens that keeps a relation. The fault of an
open block is there only for scripts that `mayLeaveOpen`. -/
inductive Fed.Keeps (P : List Token → α → Prop) (mayLeaveOpen : Prop) (ts : List Token) :
    Fed α → Prop
  | gave {a : α} {used rest : List Token} (hts : ts = used ++ rest) (hP : P used a) :
      Keeps P mayLeaveOpen ts (.gave a rest)
  | unexpected (expected : Expectation) (found : Token) :
      Keeps P mayLeaveOpen ts (.failed (.unexpected expected found))
  | unclosed (h : mayLeaveOpen) (keyword openTag : Token) :
      Keeps P mayLeaveOpen ts (.failed (.unclosed keyword openTag))
  | exhausted : Keeps P mayLeaveOpen ts (.failed .exhausted)
  | waiting : Keeps P mayLeaveOpen ts .waiting

/-- Does what the script takes always stand in the relation to what it gives? -/
def Keeps (s : Script α) (P : List Token → α → Prop) (mayLeaveOpen : Prop) : Prop :=
  ∀ ts, (s.feed ts).Keeps P mayLeaveOpen ts

/-- The same of tokens that begin with one that was looked at. -/
def KeepsAt (tok : Token) (s : Script α) (P : List Token → α → Prop) (mayLeaveOpen : Prop) : Prop :=
  ∀ rest, (s.feed (tok :: rest)).Keeps P mayLeaveOpen (tok :: rest)

variable {P Q : List Token → α → Prop} {R : List Token → β → Prop} {mayLeaveOpen : Prop}
  {s : Script α} {k : α → Script β} {tok : Token}

theorem Fed.Keeps.weaken {fed : Fed α} {ts : List Token} (h : fed.Keeps P mayLeaveOpen ts)
    (hPQ : ∀ us a, P us a → Q us a) : fed.Keeps Q mayLeaveOpen ts := by
  cases h with
  | gave hts hP => exact .gave hts (hPQ _ _ hP)
  | unexpected expected found => exact .unexpected expected found
  | unclosed h keyword openTag => exact .unclosed h keyword openTag
  | exhausted => exact .exhausted
  | waiting => exact .waiting

/-- What comes behind tokens that were taken. -/
theorem Fed.Keeps.behind {fed : Fed β} {ts : List Token} (us : List Token)
    (h : fed.Keeps (fun vs b => R (us ++ vs) b) mayLeaveOpen ts) :
    fed.Keeps R mayLeaveOpen (us ++ ts) := by
  cases h with
  | @gave b used rest hts hR =>
    have hcut : us ++ ts = (us ++ used) ++ rest := by rw [hts, List.append_assoc]
    exact .gave hcut hR
  | unexpected expected found => exact .unexpected expected found
  | unclosed h keyword openTag => exact .unclosed h keyword openTag
  | exhausted => exact .exhausted
  | waiting => exact .waiting

namespace Keeps

/-! ### What a kept relation says -/

theorem used (hs : s.Keeps P mayLeaveOpen) {ts rest : List Token} {a : α}
    (h : s.feed ts = .gave a rest) : ∃ us, ts = us ++ rest ∧ P us a := by
  have hts := hs ts
  rw [h] at hts
  cases hts with
  | gave hcut hP => exact ⟨_, hcut, hP⟩

/-! ### Scripts in a row -/

theorem weaken (hs : s.Keeps P mayLeaveOpen) (hPQ : ∀ us a, P us a → Q us a) :
    s.Keeps Q mayLeaveOpen :=
  fun ts => (hs ts).weaken hPQ

/-- A block may be left open for a better reason. -/
theorem mono {mayLeaveOpen' : Prop} (hs : s.Keeps P mayLeaveOpen)
    (himp : mayLeaveOpen → mayLeaveOpen') : s.Keeps P mayLeaveOpen' := by
  intro ts
  have hts := hs ts
  generalize s.feed ts = fed at hts
  cases hts with
  | gave hcut hP => exact .gave hcut hP
  | unexpected expected found => exact .unexpected expected found
  | unclosed h keyword openTag => exact .unclosed (himp h) keyword openTag
  | exhausted => exact .exhausted
  | waiting => exact .waiting

theorem at_token (hs : s.Keeps P mayLeaveOpen) : KeepsAt tok s P mayLeaveOpen :=
  fun rest => hs (tok :: rest)

theorem done {a : α} (hP : P [] a) : (Script.done a).Keeps P mayLeaveOpen :=
  fun _ => .gave rfl hP

/-- What the first script takes is known where the next one begins. -/
theorem bind (hs : s.Keeps P mayLeaveOpen)
    (hk : ∀ a us, P us a → (k a).Keeps (fun vs b => R (us ++ vs) b) mayLeaveOpen) :
    (s.bind k).Keeps R mayLeaveOpen := by
  intro ts
  rw [feed_bind]
  have hts := hs ts
  generalize s.feed ts = fed at hts
  cases hts with
  | @gave a us rest hcut hP =>
    rw [hcut]
    exact (hk a us hP rest).behind us
  | unexpected expected found => exact .unexpected expected found
  | unclosed h keyword openTag => exact .unclosed h keyword openTag
  | exhausted => exact .exhausted
  | waiting => exact .waiting

/-- The result of a script, changed. -/
theorem map {e : α → β} (hs : s.Keeps P mayLeaveOpen) (hPR : ∀ us a, P us a → R us (e a)) :
    (s.bind fun a => Script.done (e a)).Keeps R mayLeaveOpen := by
  refine bind hs fun a us hP => done ?_
  rw [List.append_nil]
  exact hPR us a hP

/-! ### Requests -/

theorem expect (kind : Token.Kind) (expected : Expectation) :
    (Script.expect kind expected).Keeps (fun us tok => us = [tok] ∧ tok.kind = kind)
      mayLeaveOpen := by
  intro ts
  cases ts with
  | nil => exact .waiting
  | cons tok rest =>
    simp only [Script.expect, feed, List.getElem?_cons_zero]
    by_cases htok : tok.kind = kind
    · rw [if_pos htok]
      have hcut : tok :: rest = [tok] ++ rest := rfl
      exact .gave hcut ⟨rfl, htok⟩
    · rw [if_neg htok]
      exact .unexpected expected tok

/-- A token of some kinds is taken if one stands there. -/
theorem accept {kinds : List Token.Kind} {k : Option Token → Script β}
    (hsome : ∀ tok, tok.kind ∈ kinds →
      (k (some tok)).Keeps (fun us b => R (tok :: us) b) mayLeaveOpen)
    (hnone : (k none).Keeps R mayLeaveOpen) :
    ((Script.accept kinds).bind k).Keeps R mayLeaveOpen := by
  intro ts
  cases ts with
  | nil => exact .waiting
  | cons tok rest =>
    rw [feed_accept]
    by_cases htok : tok.kind ∈ kinds
    · rw [if_pos htok]
      exact Fed.Keeps.behind [tok] (hsome tok htok rest)
    · rw [if_neg htok]
      exact hnone (tok :: rest)

/-- The next token is looked at and what follows depends on it. -/
theorem look {next : Token → Script β} (hk : ∀ tok, KeepsAt tok (next tok) R mayLeaveOpen) :
    (Script.look 0 next).Keeps R mayLeaveOpen := by
  intro ts
  cases ts with
  | nil => exact .waiting
  | cons tok rest => exact hk tok rest

theorem peek {k : Token → Script β} (hk : ∀ tok, KeepsAt tok (k tok) R mayLeaveOpen) :
    ((Script.peek 0).bind k).Keeps R mayLeaveOpen :=
  .look hk

/-- The next token is taken, whatever it is. -/
theorem any_token {k : Token → Script β}
    (hk : ∀ tok, (k tok).Keeps (fun us b => R (tok :: us) b) mayLeaveOpen) :
    (Script.advance.bind k).Keeps R mayLeaveOpen := by
  intro ts
  cases ts with
  | nil => exact .waiting
  | cons tok rest => exact Fed.Keeps.behind [tok] (hk tok rest)

/-- A question about the next token. -/
theorem ask {kinds : List Token.Kind} {k : Bool → Script β}
    (htrue : (k true).Keeps R mayLeaveOpen) (hfalse : (k false).Keeps R mayLeaveOpen) :
    ((at? kinds).bind k).Keeps R mayLeaveOpen := by
  refine .look fun tok => ?_
  change KeepsAt tok (k (kinds.contains tok.kind)) R mayLeaveOpen
  cases kinds.contains tok.kind with
  | true => exact htrue.at_token
  | false => exact hfalse.at_token

/-- No token fits. -/
theorem reject {expected : Expectation} :
    ((Script.peek 0).bind fun tok => (Script.reject expected tok : Script β)).Keeps R
      mayLeaveOpen :=
  .look fun tok _ => .unexpected expected tok

theorem exhausted : (Script.fail .exhausted : Script β).Keeps R mayLeaveOpen := fun _ => .exhausted

end Keeps

/-- The token that was looked at is taken. -/
theorem KeepsAt.advance {k : Token → Script β}
    (hk : (k tok).Keeps (fun us b => R (tok :: us) b) mayLeaveOpen) :
    KeepsAt tok (Script.advance.bind k) R mayLeaveOpen :=
  fun rest => Fed.Keeps.behind [tok] (hk rest)

/-- The token that was looked at is not the one expected. -/
theorem KeepsAt.reject {expected : Expectation} :
    KeepsAt tok (Script.reject expected tok : Script β) R mayLeaveOpen :=
  fun _ => .unexpected expected tok

end Script
end ClearSilver
