/-
# Feeding a script with finitely many tokens

A script that is fed with a list of tokens gives a result and leaves the
tokens it did not take, or fails, or waits for a token after the last one
(`Script.feed`). More tokens change neither a result nor a fault
(`Script.feed_append`), and a run over a source is the script fed with the
tokens that were pulled from it (`Script.run_feed`). So what a script does is
said of lists of tokens, and a run follows.

Key definitions: `Script.Fed`, `Script.feed`, `Pulls`.
Key theorems: `Script.feed_bind`, `Script.feed_append`, `Script.run_feed`,
`Script.run_outcome`, `Script.run_waiting`.
-/
import ClearSilver.Lookahead

namespace ClearSilver

namespace Script

variable {α β : Type}

/-! ### Feeding -/

/-- How a script ends that is fed with some tokens. -/
inductive Fed (α : Type)
  /-- A result, with the tokens that were not taken. -/
  | gave (a : α) (rest : List Token)
  | failed (fault : Fault)
  /-- The script asks for a token after the last one. -/
  | waiting

/-- Goes on with the next script where the first gave a result. -/
def Fed.andThen : Fed α → (α → List Token → Fed β) → Fed β
  | gave a rest, f => f a rest
  | failed fault, _ => failed fault
  | waiting, _ => waiting

/-- What a script does with these tokens. -/
def feed : Script α → List Token → Fed α
  | done a, ts => .gave a ts
  | fail fault, _ => .failed fault
  | note _ next, ts => next.feed ts
  | look ahead next, ts =>
    match ts[ahead]? with
    | some tok => (next tok).feed ts
    | none => .waiting
  | take next, ts =>
    match ts with
    | tok :: rest => (next tok).feed rest
    | [] => .waiting

/-- Two scripts in a row are fed one after the other. -/
theorem feed_bind (f : α → Script β) : ∀ (s : Script α) (ts : List Token),
    (s.bind f).feed ts = (s.feed ts).andThen fun a rest => (f a).feed rest
  | done _, _ => rfl
  | fail _, _ => rfl
  | note _ next, ts => feed_bind f next ts
  | look ahead next, ts => by
    simp only [bind, feed]
    split
    · exact feed_bind f _ ts
    · rfl
  | take next, [] => rfl
  | take next, tok :: rest => feed_bind f (next tok) rest

/-- The tokens that come later, where they are not taken. -/
def Fed.append : Fed α → List Token → Fed α
  | gave a rest, more => gave a (rest ++ more)
  | failed fault, _ => failed fault
  | waiting, _ => waiting

/-- More tokens change no result and no fault. -/
theorem feed_append (more : List Token) : ∀ (s : Script α) (ts : List Token),
    s.feed ts ≠ .waiting → s.feed (ts ++ more) = (s.feed ts).append more
  | done _, _, _ => rfl
  | fail _, _, _ => rfl
  | note _ next, ts, h => feed_append more next ts h
  | look ahead next, ts, h => by
    simp only [feed] at h ⊢
    cases hts : ts[ahead]? with
    | none => simp [hts] at h
    | some tok =>
      have hlt := (List.getElem?_eq_some_iff.mp hts).1
      rw [hts] at h
      rw [List.getElem?_append_left hlt, hts]
      exact feed_append more (next tok) ts h
  | take next, [], h => absurd rfl h
  | take next, tok :: rest, h => feed_append more (next tok) rest h

theorem gave_append {s : Script α} {ts rest : List Token} {a : α} (h : s.feed ts = .gave a rest)
    (more : List Token) : s.feed (ts ++ more) = .gave a (rest ++ more) := by
  rw [feed_append more s ts (by simp [h]), h]
  rfl

theorem failed_append {s : Script α} {ts : List Token} {fault : Fault}
    (h : s.feed ts = .failed fault) (more : List Token) : s.feed (ts ++ more) = .failed fault := by
  rw [feed_append more s ts (by simp [h]), h]
  rfl

/-- A result of two scripts in a row goes through one of the first. -/
theorem gave_of_bind {s : Script α} {f : α → Script β} {ts rest : List Token} {b : β}
    (h : (s.bind f).feed ts = .gave b rest) :
    ∃ a rest', s.feed ts = .gave a rest' ∧ (f a).feed rest' = .gave b rest := by
  rw [feed_bind] at h
  cases hs : s.feed ts with
  | gave a rest' =>
    rw [hs] at h
    exact ⟨a, rest', rfl, h⟩
  | failed fault =>
    rw [hs] at h
    cases h
  | waiting =>
    rw [hs] at h
    cases h

theorem feed_look (next : Token → Script α) (tok : Token) (ts : List Token) :
    (look 0 next).feed (tok :: ts) = (next tok).feed (tok :: ts) := rfl

theorem feed_peek (k : Token → Script β) (tok : Token) (ts : List Token) :
    ((peek 0).bind k).feed (tok :: ts) = (k tok).feed (tok :: ts) := rfl

/-- A question about the next token is answered by it. -/
theorem feed_ask (kinds : List Token.Kind) (k : Bool → Script β) (tok : Token) (ts : List Token) :
    ((at? kinds).bind k).feed (tok :: ts) = (k (decide (tok.kind ∈ kinds))).feed (tok :: ts) := by
  rw [← List.contains_eq_mem]
  rfl

/-- A token of some kinds is taken where it stands. -/
theorem feed_accept (kinds : List Token.Kind) (f : Option Token → Script β) (tok : Token)
    (ts : List Token) : ((accept kinds).bind f).feed (tok :: ts) =
      if tok.kind ∈ kinds then (f (some tok)).feed ts else (f none).feed (tok :: ts) := by
  simp only [accept, bind, feed, List.getElem?_cons_zero]
  by_cases h : tok.kind ∈ kinds
  · rw [if_pos h, if_pos (List.contains_iff_mem.mpr h)]
    rfl
  · rw [if_neg h, if_neg (by simpa using h)]
    rfl

end Script

/-! ### Pulling -/

section

variable {σ : Type} [TokenSource σ]

/-- A source that gives these tokens and then stands where the last one does. -/
inductive Pulls : σ → List Token → σ → Prop
  | none (s : σ) : Pulls s [] s
  | more {s s' s'' : σ} {tok : Token} {toks : List Token}
      (h : TokenSource.pull s = (.ok tok, s')) (hs : Pulls s' toks s'') : Pulls s (tok :: toks) s''

theorem Pulls.append {s s' s'' : σ} {ts us : List Token} (h : Pulls s ts s')
    (h' : Pulls s' us s'') :
    Pulls s (ts ++ us) s'' := by
  induction h with
  | none _ => exact h'
  | more hp _ ih => exact .more hp (ih h')

theorem Pulls.split {s s'' : σ} : ∀ {ts us : List Token}, Pulls s (ts ++ us) s'' →
    ∃ s', Pulls s ts s' ∧ Pulls s' us s''
  | [], _, h => ⟨s, .none s, h⟩
  | _ :: _, _, .more hp hs =>
    let ⟨s', hts, hus⟩ := hs.split
    ⟨s', .more hp hts, hus⟩

/-- Of two lists that a source gives, one goes on where the other ends. -/
theorem Pulls.compare {s s₁ s₂ : σ} {ts us : List Token} (h : Pulls s ts s₁) (h' : Pulls s us s₂) :
    (∃ vs, us = ts ++ vs ∧ Pulls s₁ vs s₂) ∨ ∃ vs, ts = us ++ vs ∧ Pulls s₂ vs s₁ := by
  induction h generalizing us with
  | none s => exact .inl ⟨us, rfl, h'⟩
  | more hp hs ih =>
    cases h' with
    | none => exact .inr ⟨_, rfl, .more hp hs⟩
    | more hp' hs' =>
      obtain ⟨htok, rfl⟩ := Prod.mk.inj (hp.symm.trans hp')
      obtain rfl := Except.ok.inj htok
      rcases ih hs' with ⟨vs, rfl, hv⟩ | ⟨vs, rfl, hv⟩
      · exact .inl ⟨vs, rfl, hv⟩
      · exact .inr ⟨vs, rfl, hv⟩

/-- As many tokens of a source are the same tokens. -/
theorem Pulls.eq_of_length {s s₁ s₂ : σ} {ts us : List Token} (h : Pulls s ts s₁)
    (h' : Pulls s us s₂) (hlen : ts.length = us.length) : ts = us := by
  rcases h.compare h' with ⟨vs, rfl, -⟩ | ⟨vs, rfl, -⟩
  · rw [List.length_append] at hlen
    rw [List.eq_nil_of_length_eq_zero (show vs.length = 0 by omega), List.append_nil]
  · rw [List.length_append] at hlen
    rw [List.eq_nil_of_length_eq_zero (show vs.length = 0 by omega), List.append_nil]

namespace Lookahead

/-- Pulling some tokens into the queue: all of them are there, or the last
pull failed. -/
theorem pullMore_cases : ∀ (n : Nat) (l : Lookahead σ), ∃ toks s, Pulls l.source toks s ∧
    ((∃ tok, l.pullMore n = (.ok tok, ⟨s, l.queue ++ toks⟩) ∧ toks.length = n + 1 ∧
        toks[n]? = some tok) ∨
      ∃ fault s', TokenSource.pull s = (.error fault, s') ∧ toks.length ≤ n ∧
        l.pullMore n = (.error fault, ⟨s', l.queue ++ toks⟩))
  | n, l => by
    unfold pullMore
    cases hp : TokenSource.pull l.source with
    | mk r s' =>
      cases r with
      | error fault =>
        exact ⟨[], l.source, .none _, .inr ⟨fault, s', hp, Nat.zero_le _, by simp⟩⟩
      | ok tok =>
        cases n with
        | zero => exact ⟨[tok], s', .more hp (.none _), .inl ⟨tok, rfl, rfl, rfl⟩⟩
        | succ n =>
          obtain ⟨toks, s, hs, h⟩ := pullMore_cases n ⟨s', l.queue ++ [tok]⟩
          refine ⟨tok :: toks, s, .more hp hs, ?_⟩
          rcases h with ⟨tok', h, hlen, hlast⟩ | ⟨fault, s'', hf, hlen, h⟩
          · refine .inl ⟨tok', ?_, by simp [hlen], by simpa using hlast⟩
            simpa using h
          · refine .inr ⟨fault, s'', hf, by simpa using hlen, ?_⟩
            simpa using h

end Lookahead

namespace Script

variable {α : Type}

/-- What a script fed with some tokens says of its run over a source that
stands at `src` after them. -/
inductive Accounts (src : σ) (run : Run σ α) : Fed α → Prop
  | gave {a : α} {rest : List Token} (h : run.outcome = .ok a) (hr : run.rest = ⟨src, rest⟩) :
      Accounts src run (.gave a rest)
  | failed {fault : Fault} (h : run.outcome = .error fault) : Accounts src run (.failed fault)
  | waiting {fault : LexicalFault} {src' : σ} (h : run.outcome = .error (.lexical fault))
      (hp : TokenSource.pull src = (.error fault, src')) : Accounts src run .waiting

/-- **A run is the script fed with what it pulls.** Every run pulls some
tokens, and fed with them, behind those of the queue, the script ends as the
run does; it waits only where the next pull fails. -/
theorem run_feed : ∀ (s : Script α) (l : Lookahead σ), ∃ toks src, Pulls l.source toks src ∧
    Accounts src (s.run l) (s.feed (l.queue ++ toks))
  | done a, l => ⟨[], l.source, .none _, .gave rfl (by simp [run])⟩
  | fail fault, l => ⟨[], l.source, .none _, .failed rfl⟩
  | note event next, l => by
    obtain ⟨toks, src, hp, h⟩ := run_feed next l
    refine ⟨toks, src, hp, ?_⟩
    rw [feed]
    generalize next.feed (l.queue ++ toks) = fed at h
    cases h with
    | gave h hr => exact .gave h hr
    | failed h => exact .failed h
    | waiting h hp => exact .waiting h hp
  | look ahead next, l => by
    rw [run]
    cases hq : l.queue[ahead]? with
    | some tok =>
      obtain ⟨toks, src, hp, h⟩ := run_feed (next tok) l
      have hlt := (List.getElem?_eq_some_iff.mp hq).1
      refine ⟨toks, src, hp, ?_⟩
      simp only [Lookahead.look, hq, feed, List.getElem?_append_left hlt]
      exact h
    | none =>
      have hle := List.getElem?_eq_none_iff.mp hq
      obtain ⟨toks, src, hp, h⟩ := l.pullMore_cases (ahead - l.queue.length)
      rcases h with ⟨tok, h, hlen, hlast⟩ | ⟨fault, src', hf, hlen, h⟩
      · obtain ⟨more, src', hp', h'⟩ := run_feed (next tok) ⟨src, l.queue ++ toks⟩
        refine ⟨toks ++ more, src', hp.append hp', ?_⟩
        have hat : (l.queue ++ (toks ++ more))[ahead]? = some tok := by
          rw [List.getElem?_append_right hle, List.getElem?_append_left (by omega), hlast]
        simp only [Lookahead.look, hq, h, feed, hat]
        rw [← List.append_assoc]
        exact h'
      · refine ⟨toks, src, hp, ?_⟩
        have hat : (l.queue ++ toks)[ahead]? = none := by
          rw [List.getElem?_eq_none_iff, List.length_append]
          omega
        simp only [Lookahead.look, hq, h, feed, hat]
        exact .waiting rfl hf
  | take next, l => by
    rw [run, Lookahead.take]
    cases l with
    | mk source queue =>
    cases queue with
    | cons tok queue =>
      obtain ⟨toks, src, hp, h⟩ := run_feed (next tok) ⟨source, queue⟩
      exact ⟨toks, src, hp, h⟩
    | nil =>
      obtain ⟨toks, src, hp, h⟩ := (⟨source, []⟩ : Lookahead σ).pullMore_cases 0
      rcases h with ⟨tok, h, hlen, hlast⟩ | ⟨fault, src', hf, hlen, h⟩
      · obtain ⟨tok', rfl⟩ := List.length_eq_one_iff.mp hlen
        obtain rfl := Option.some.inj hlast
        obtain ⟨more, src', hp', h'⟩ := run_feed (next tok') ⟨src, []⟩
        refine ⟨tok' :: more, src', hp.append hp', ?_⟩
        simp only [Lookahead.look, List.getElem?_nil, List.length_nil, Nat.sub_self, h]
        exact h'
      · obtain rfl := List.length_eq_zero_iff.mp (Nat.le_zero.mp hlen)
        refine ⟨[], src, hp, ?_⟩
        simp only [Lookahead.look, List.getElem?_nil, List.length_nil, Nat.sub_self, h]
        exact .waiting rfl hf

/-- How a script ends that asks for no more tokens. -/
def Fed.outcome? : Fed α → Option (Except Fault α)
  | gave a _ => some (.ok a)
  | failed fault => some (.error fault)
  | waiting => none

/-- More tokens change no outcome. -/
theorem outcome?_append {s : Script α} {ts : List Token} {o : Except Fault α}
    (h : (s.feed ts).outcome? = some o) (more : List Token) :
    (s.feed (ts ++ more)).outcome? = some o := by
  cases hfed : s.feed ts with
  | gave a rest =>
    rw [gave_append hfed]
    rw [hfed] at h
    exact h
  | failed fault =>
    rw [failed_append hfed]
    rw [hfed] at h
    exact h
  | waiting =>
    rw [hfed] at h
    cases h

/-- **A run ends as the script does** that is fed with tokens of the source. -/
theorem run_outcome {s : Script α} {l : Lookahead σ} {toks : List Token} {src : σ}
    {o : Except Fault α} (hp : Pulls l.source toks src)
    (h : (s.feed (l.queue ++ toks)).outcome? = some o) : (s.run l).outcome = o := by
  obtain ⟨toks', src', hp', hrun⟩ := run_feed s l
  have hsame : (s.feed (l.queue ++ toks')).outcome? = some o ∨
      s.feed (l.queue ++ toks') = .waiting ∧ ∃ tok vs, Pulls src' (tok :: vs) src := by
    rcases hp.compare hp' with ⟨vs, rfl, -⟩ | ⟨vs, rfl, hv⟩
    · rw [← List.append_assoc]
      exact .inl (outcome?_append h vs)
    · cases hfed : (s.feed (l.queue ++ toks')).outcome? with
      | some o' =>
        have hmore := outcome?_append hfed vs
        rw [List.append_assoc, h] at hmore
        exact .inl hmore.symm
      | none =>
        cases vs with
        | nil =>
          rw [List.append_nil, hfed] at h
          cases h
        | cons tok vs =>
          refine .inr ⟨?_, tok, vs, hv⟩
          generalize s.feed (l.queue ++ toks') = fed at hfed
          cases fed <;> first | rfl | cases hfed
  generalize s.feed (l.queue ++ toks') = fed at hrun hsame
  cases hrun with
  | gave hrun _ =>
    rcases hsame with h | ⟨h, -⟩ <;> cases h
    exact hrun
  | failed hrun =>
    rcases hsame with h | ⟨h, -⟩ <;> cases h
    exact hrun
  | waiting hrun hpull =>
    rcases hsame with h | ⟨-, tok, vs, hv⟩
    · cases h
    · cases hv with
      | more hm _ =>
        rw [hpull] at hm
        cases hm

/-- **A run is stopped by the source** where the script waits for a token that
cannot be pulled. -/
theorem run_waiting {s : Script α} {l : Lookahead σ} {toks : List Token} {src src' : σ}
    {fault : LexicalFault} (hp : Pulls l.source toks src)
    (hn : TokenSource.pull src = (.error fault, src'))
    (h : s.feed (l.queue ++ toks) = .waiting) : (s.run l).outcome = .error (.lexical fault) := by
  -- nothing can be pulled behind these tokens
  have hend : ∀ {us : List Token} {src'' : σ}, Pulls src us src'' → us = [] ∧ src'' = src := by
    intro us src'' hus
    cases hus with
    | none => exact ⟨rfl, rfl⟩
    | more hmore _ =>
      rw [hn] at hmore
      cases hmore
  obtain ⟨toks', src'', hp', hrun⟩ := run_feed s l
  have hsame : s.feed (l.queue ++ toks') = .waiting ∧
      ∃ vs, toks = toks' ++ vs ∧ Pulls src'' vs src := by
    rcases hp.compare hp' with ⟨vs, rfl, hvs⟩ | ⟨vs, rfl, hvs⟩
    · obtain ⟨rfl, rfl⟩ := hend hvs
      rw [List.append_nil]
      exact ⟨h, [], (List.append_nil toks).symm, .none _⟩
    · refine ⟨?_, vs, rfl, hvs⟩
      rw [← List.append_assoc] at h
      cases hfed : s.feed (l.queue ++ toks') with
      | waiting => rfl
      | gave a rest =>
        rw [gave_append hfed] at h
        cases h
      | failed fault =>
        rw [failed_append hfed] at h
        cases h
  obtain ⟨hwaits, vs, -, hvs⟩ := hsame
  rw [hwaits] at hrun
  cases hrun with
  | waiting ho hpull =>
    cases hvs with
    | none =>
      rw [hn] at hpull
      cases hpull
      exact ho
    | more hmore _ =>
      rw [hpull] at hmore
      cases hmore

/-- A budget that the tokens do not spend is not spent. -/
theorem run_ne_exhausted {s : Script α} {l : Lookahead σ} {toks : List Token} {src : σ}
    (hp : Pulls l.source toks src) (hlasts : s.feed (l.queue ++ toks) ≠ .failed .exhausted)
    (hwaits : s.feed (l.queue ++ toks) = .waiting →
      ∃ fault src', TokenSource.pull src = (.error fault, src')) :
    (s.run l).outcome ≠ .error .exhausted := by
  intro hspent
  cases hfed : s.feed (l.queue ++ toks) with
  | gave a rest =>
    have houtcome := run_outcome hp (o := .ok a) (by rw [hfed]; rfl)
    rw [hspent] at houtcome
    cases houtcome
  | failed fault =>
    have houtcome := run_outcome hp (o := .error fault) (by rw [hfed]; rfl)
    rw [hspent] at houtcome
    cases houtcome
    exact hlasts hfed
  | waiting =>
    obtain ⟨fault, src', hn⟩ := hwaits hfed
    have houtcome := run_waiting hp hn hfed
    rw [hspent] at houtcome
    cases houtcome

end Script

end
end ClearSilver
