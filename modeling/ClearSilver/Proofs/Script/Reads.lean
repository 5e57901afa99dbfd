/-
# What a script reads

A script reads a form if, fed with any tokens, what it takes matches the form
and where it stops is as far as the form leads: the tokens before an
unexpected one, or all tokens if it waits for more, can be completed to
something that matches (`Script.Reads`). The result has a property that may
rest on the tokens taken being proper: each a lexeme of its kind, no literal
text right after literal text (`Proper`). The rules follow the requests.

Key definitions: `Token.IsProper`, `Proper`, `Script.Reads`, `Script.ReadsAt`.
Key theorems: `Script.Reads.bind`, `Script.Reads.expect`, `Script.Reads.accept`,
`Script.Reads.look`, `Script.ReadsAt.advance`.
-/
import ClearSilver.Proofs.Grammar.Matches
import ClearSilver.Proofs.Scan.Lexeme
import ClearSilver.Proofs.Script.Feed

namespace ClearSilver

/-! ### Proper tokens -/

/-- Is the text a lexeme of its kind, a word being one among the arguments? -/
def Token.IsProper (tok : Token) : Prop :=
  ∃ mode : Mode, mode.IsLexeme tok.kind tok.text ∧ (tok.kind = .word → mode = .arguments)

/-- Each token is a lexeme of its kind, and no literal text follows literal text. -/
structure Proper (ts : List Token) : Prop where
  lexemes : ∀ tok ∈ ts, tok.IsProper
  apart : ∀ us a b vs, ts = us ++ a :: b :: vs → a.kind = .data → b.kind ≠ .data

theorem Proper.left {us vs : List Token} (h : Proper (us ++ vs)) : Proper us where
  lexemes tok htok := h.lexemes tok (List.mem_append_left _ htok)
  apart xs a b ys hts := h.apart xs a b (ys ++ vs) (by simp [hts])

theorem Proper.right {us vs : List Token} (h : Proper (us ++ vs)) : Proper vs where
  lexemes tok htok := h.lexemes tok (List.mem_append_right _ htok)
  apart xs a b ys hts := h.apart (us ++ xs) a b ys (by simp [hts])

theorem Proper.tail {tok : Token} {ts : List Token} (h : Proper (tok :: ts)) : Proper ts :=
  @Proper.right [tok] ts h

theorem Proper.head {tok : Token} {ts : List Token} (h : Proper (tok :: ts)) : tok.IsProper :=
  h.lexemes tok List.mem_cons_self

namespace Script

variable {α β : Type}

/-! ### Reading a form -/

/-- How a script that reads a form ends on these tokens. -/
inductive Fed.Obeys (f : Form) (P : List Token → α → Prop) (ts : List Token) : Fed α → Prop
  | gave {a : α} {used rest : List Token} (hts : ts = used ++ rest) (hf : f.Matches used)
      (hP : Proper used → P used a) : Obeys f P ts (.gave a rest)
  | unexpected {expected : Expectation} {found : Token} {before after : List Token}
      (hts : ts = before ++ found :: after) (hf : f.Leads before) :
      Obeys f P ts (.failed (.unexpected expected found))
  | unclosed (keyword openTag : Token) : Obeys f P ts (.failed (.unclosed keyword openTag))
  | exhausted : Obeys f P ts (.failed .exhausted)
  | waiting (hf : f.Leads ts) : Obeys f P ts .waiting

/-- Does the script take what matches the form, stop no later than the form
leads, and give results with the property? -/
def Reads (s : Script α) (f : Form) (P : List Token → α → Prop) : Prop :=
  ∀ ts, (s.feed ts).Obeys f P ts

/-- The same of tokens that begin with one that was looked at. -/
def ReadsAt (tok : Token) (s : Script α) (f : Form) (P : List Token → α → Prop) : Prop :=
  ∀ rest, (s.feed (tok :: rest)).Obeys f P (tok :: rest)

variable {f g h : Form} {P Q : List Token → α → Prop} {R : List Token → β → Prop}
  {s : Script α} {k : α → Script β} {tok : Token}

theorem Fed.Obeys.weaken {fed : Fed α} {ts : List Token} (ho : fed.Obeys f P ts)
    (hfg : f.Within g) (hPQ : ∀ us a, Proper us → P us a → Q us a) : fed.Obeys g Q ts := by
  cases ho with
  | gave hts hf hP => exact .gave hts (hfg _ hf) fun hu => hPQ _ _ hu (hP hu)
  | unexpected hts hf => exact .unexpected hts (hf.within hfg)
  | unclosed keyword openTag => exact .unclosed keyword openTag
  | exhausted => exact .exhausted
  | waiting hf => exact .waiting (hf.within hfg)

/-- The first token can be the unexpected one. -/
theorem Fed.Obeys.unexpected_first {expected : Expectation} {found : Token} {ts : List Token}
    (hnil : f.Leads []) :
    (Fed.failed (.unexpected expected found) : Fed α).Obeys f P (found :: ts) :=
  .unexpected (List.nil_append _).symm hnil

/-- What comes behind a token that was taken. -/
theorem Fed.Obeys.cons {fed : Fed β} {ts : List Token}
    (ho : fed.Obeys f (fun us b => Proper (tok :: us) → R (tok :: us) b) ts) :
    fed.Obeys (.both (.token tok.kind) f) R (tok :: ts) := by
  have htok : (Form.token tok.kind).Matches [tok] := Form.matches_token.mpr ⟨tok, rfl, rfl⟩
  cases ho with
  | @gave a used rest hts hf hP =>
    have hts' : tok :: ts = (tok :: used) ++ rest := by rw [hts, List.cons_append]
    refine .gave hts' ?_ fun hu => hP hu.tail hu
    exact Form.matches_both.mpr ⟨[tok], used, rfl, htok, hf⟩
  | @unexpected expected found before after hts hf =>
    have hts' : tok :: ts = (tok :: before) ++ found :: after := by rw [hts, List.cons_append]
    exact .unexpected hts' (hf.behind htok)
  | unclosed keyword openTag => exact .unclosed keyword openTag
  | exhausted => exact .exhausted
  | waiting hf => exact .waiting (hf.behind htok)

namespace Reads

theorem weaken (hs : s.Reads f P) (hfg : f.Within g)
    (hPQ : ∀ us a, Proper us → P us a → Q us a) : s.Reads g Q :=
  fun ts => (hs ts).weaken hfg hPQ

theorem within (hs : s.Reads f P) (hfg : f.Within g) : s.Reads g P :=
  hs.weaken hfg fun _ _ _ hP => hP

theorem at_token (hs : s.Reads f P) : ReadsAt tok s f P := fun rest => hs (tok :: rest)

theorem done {a : α} (hP : P [] a) : (Script.done a).Reads .empty P :=
  fun _ => .gave rfl (Form.matches_empty.mpr rfl) fun _ => hP

/-- Scripts in a row read their forms in a row. -/
theorem bind (hs : s.Reads f P) (hg : g.Leads [])
    (hk : ∀ a, (k a).Reads g fun vs b => ∀ us, P us a → Proper (us ++ vs) → R (us ++ vs) b) :
    (s.bind k).Reads (.both f g) R := by
  intro ts
  rw [feed_bind]
  have ho := hs ts
  generalize s.feed ts = fed at ho
  cases ho with
  | @gave a used rest hts hf hP =>
    have ho' := hk a rest
    rw [Fed.andThen]
    generalize (k a).feed rest = fed' at ho'
    cases ho' with
    | @gave b used' rest' hts' hf' hP' =>
      have hcut : ts = (used ++ used') ++ rest' := by rw [hts, hts', List.append_assoc]
      refine .gave hcut ?_ fun hu => ?_
      · exact Form.matches_both.mpr ⟨used, used', rfl, hf, hf'⟩
      · exact hP' hu.right used (hP hu.left) hu
    | @unexpected _ found before after hts' hf' =>
      have hcut : ts = (used ++ before) ++ found :: after := by rw [hts, hts', List.append_assoc]
      exact .unexpected hcut (hf'.behind hf)
    | unclosed keyword openTag => exact .unclosed keyword openTag
    | exhausted => exact .exhausted
    | waiting hf' =>
      refine .waiting ?_
      rw [hts]
      exact hf'.behind hf
  | unexpected hts hf => exact .unexpected hts (hf.both hg)
  | unclosed keyword openTag => exact .unclosed keyword openTag
  | exhausted => exact .exhausted
  | waiting hf => exact .waiting (hf.both hg)

/-- The result of a script, changed. -/
theorem map {e : α → β} (hs : s.Reads f P) (hPR : ∀ us a, Proper us → P us a → R us (e a)) :
    (s.bind fun a => Script.done (e a)).Reads f R := by
  refine (bind (g := .empty) hs (Form.leads_nil rfl) fun a => done ?_).within
    (Form.within_both_empty f)
  intro us hP hu
  rw [List.append_nil] at hu ⊢
  exact hPR us a hu hP

/-! ### Requests -/

theorem expect {kind : Token.Kind} (expected : Expectation) (hk : kind.isPlain = true) :
    (Script.expect kind expected).Reads (.token kind)
      fun us tok => us = [tok] ∧ tok.kind = kind ∧ tok.IsProper := by
  intro ts
  have hnil : (Form.token kind).Leads [] := Form.leads_nil hk
  cases ts with
  | nil => exact .waiting hnil
  | cons tok rest =>
    simp only [Script.expect, feed, List.getElem?_cons_zero]
    by_cases htok : tok.kind = kind
    · rw [if_pos htok]
      have hcut : tok :: rest = [tok] ++ rest := rfl
      refine .gave hcut (Form.matches_token.mpr ⟨tok, htok, rfl⟩) fun hu => ?_
      exact ⟨rfl, htok, hu.head⟩
    · rw [if_neg htok]
      exact .unexpected_first hnil

/-- A token of some kinds is taken if one stands there. -/
theorem accept {kinds : List Token.Kind} {k : Option Token → Script β} (hnil : h.Leads [])
    (hsome : ∀ tok, tok.kind ∈ kinds → ∃ f, (k (some tok)).Reads f
      (fun us b => Proper (tok :: us) → R (tok :: us) b) ∧ (Form.both (.token tok.kind) f).Within h)
    (hnone : (k none).Reads h R) : ((Script.accept kinds).bind k).Reads h R := by
  intro ts
  cases ts with
  | nil => exact .waiting hnil
  | cons tok rest =>
    rw [feed_accept]
    by_cases htok : tok.kind ∈ kinds
    · obtain ⟨f, hf, hw⟩ := hsome tok htok
      rw [if_pos htok]
      exact ((hf rest).cons).weaken hw fun _ _ _ hR => hR
    · rw [if_neg htok]
      exact hnone (tok :: rest)

/-- The next token is looked at and what follows depends on it. -/
theorem look {next : Token → Script β} (hnil : h.Leads [])
    (hk : ∀ tok, ReadsAt tok (next tok) h R) : (Script.look 0 next).Reads h R := by
  intro ts
  cases ts with
  | nil => exact .waiting hnil
  | cons tok rest => exact hk tok rest

theorem peek {k : Token → Script β} (hnil : h.Leads []) (hk : ∀ tok, ReadsAt tok (k tok) h R) :
    ((Script.peek 0).bind k).Reads h R :=
  .look hnil hk

/-- The next token is taken, whatever it is. -/
theorem any_token {k : Token → Script β} (hnil : h.Leads [])
    (hk : ∀ tok rest, ((k tok).feed rest).Obeys h R (tok :: rest)) :
    (Script.advance.bind k).Reads h R := by
  intro ts
  cases ts with
  | nil => exact .waiting hnil
  | cons tok rest => exact hk tok rest

/-- A question about the next token. -/
theorem ask {kinds : List Token.Kind} {k : Bool → Script β} (hnil : h.Leads [])
    (htrue : (k true).Reads h R) (hfalse : (k false).Reads h R) :
    ((at? kinds).bind k).Reads h R := by
  refine .look hnil fun tok => ?_
  change ReadsAt tok (k (kinds.contains tok.kind)) h R
  cases kinds.contains tok.kind with
  | true => exact htrue.at_token
  | false => exact hfalse.at_token

end Reads

/-- The token that was looked at is taken. -/
theorem ReadsAt.advance {k : Token → Script β}
    (hk : (k tok).Reads f fun us b => Proper (tok :: us) → R (tok :: us) b)
    (hf : (Form.both (.token tok.kind) f).Within h) : ReadsAt tok (Script.advance.bind k) h R :=
  fun rest => ((hk rest).cons).weaken hf fun _ _ _ hR => hR

/-- The token that was looked at is not the one expected. -/
theorem ReadsAt.reject {expected : Expectation} (hnil : h.Leads []) :
    ReadsAt tok (Script.reject expected tok : Script β) h R :=
  fun _ => .unexpected_first hnil

/-- No token fits. -/
theorem Reads.reject {expected : Expectation} (hnil : h.Leads []) :
    ((Script.peek 0).bind fun tok => (Script.reject expected tok : Script β)).Reads h R :=
  .look hnil fun _ => .reject hnil

theorem Reads.exhausted : (Script.fail .exhausted : Script β).Reads h R := fun _ => .exhausted

end Script
end ClearSilver
