/-
# Runs over sources that give the same tokens

Two sources agree in a relation if the pulls of related sources give the same
token or the same fault and lead to related sources (`Agrees`). A script sees
no more of its source than what it pulls, so over related sources with the same
queue it goes the same way (`Script.run_agrees`).

A scanner that stands at the end stays there, so a scanner and the finished
list of its tokens, the last of which repeats, agree (`agrees_reads`).

Key definitions: `Agrees`, `Scanner.ReadsTape`.
Key theorems: `Script.run_agrees`, `Scanner.next_end`, `agrees_reads`.
-/
import ClearSilver.Proofs.Scan.Stream

namespace ClearSilver

section

variable {σ τ α : Type} [TokenSource σ] [TokenSource τ]

/-- Do the pulls of related sources give the same and lead to related sources? -/
def Agrees (R : σ → τ → Prop) : Prop :=
  ∀ s t, R s t → (TokenSource.pull s).1 = (TokenSource.pull t).1 ∧
    R (TokenSource.pull s).2 (TokenSource.pull t).2

/-- Two sources with the same queue in front of them. -/
structure Lookahead.Related (R : σ → τ → Prop) (l : Lookahead σ) (l' : Lookahead τ) : Prop where
  source : R l.source l'.source
  queue : l.queue = l'.queue

namespace Lookahead

variable {R : σ → τ → Prop} {l : Lookahead σ} {l' : Lookahead τ}

theorem pullMore_agrees (hR : Agrees R) : ∀ (n : Nat) {l : Lookahead σ} {l' : Lookahead τ},
    l.Related R l' →
      (l.pullMore n).1 = (l'.pullMore n).1 ∧ (l.pullMore n).2.Related R (l'.pullMore n).2
  | n, ⟨s, queue⟩, ⟨t, queue'⟩, ⟨hs, hq⟩ => by
    obtain ⟨hgiven, hnext⟩ := hR s t hs
    obtain rfl : queue = queue' := hq
    unfold pullMore
    cases hp : TokenSource.pull s with
    | mk r s' =>
      cases hp' : TokenSource.pull t with
      | mk r' t' =>
        rw [hp, hp'] at hgiven hnext
        obtain rfl : r = r' := hgiven
        cases r with
        | error fault => exact ⟨rfl, hnext, rfl⟩
        | ok tok =>
          cases n with
          | zero => exact ⟨rfl, hnext, rfl⟩
          | succ n => exact pullMore_agrees hR n ⟨hnext, rfl⟩

theorem look_agrees (hR : Agrees R) (ahead : Nat) (h : l.Related R l') :
    (l.look ahead).1 = (l'.look ahead).1 ∧ (l.look ahead).2.Related R (l'.look ahead).2 := by
  unfold look
  rw [h.queue]
  cases l'.queue[ahead]? with
  | some tok => exact ⟨rfl, h⟩
  | none => exact pullMore_agrees hR _ h

theorem take_agrees (hR : Agrees R) (h : l.Related R l') :
    l.take.1 = l'.take.1 ∧ l.take.2.Related R l'.take.2 := by
  obtain ⟨hgiven, hnext⟩ := look_agrees hR 0 h
  unfold take
  cases hl : l.look 0 with
  | mk r m =>
    cases hl' : l'.look 0 with
    | mk r' m' =>
      rw [hl, hl'] at hgiven hnext
      obtain rfl : r = r' := hgiven
      cases r with
      | error fault => exact ⟨rfl, hnext⟩
      | ok tok => exact ⟨rfl, hnext.source, congrArg List.tail hnext.queue⟩

end Lookahead

/-- **A script goes the same way** over sources that agree. -/
theorem Script.run_agrees {R : σ → τ → Prop} (hR : Agrees R) : ∀ (s : Script α)
    {l : Lookahead σ} {l' : Lookahead τ}, l.Related R l' →
      (s.run l).outcome = (s.run l').outcome ∧ (s.run l).events = (s.run l').events
  | done a, _, _, _ => ⟨rfl, rfl⟩
  | fail fault, _, _, _ => ⟨rfl, rfl⟩
  | note event next, l, l', h => by
    obtain ⟨ho, he⟩ := run_agrees hR next h
    exact ⟨ho, congrArg (event :: ·) he⟩
  | look ahead next, l, l', h => by
    obtain ⟨hgiven, hnext⟩ := Lookahead.look_agrees hR ahead h
    rw [run, run]
    cases hl : l.look ahead with
    | mk r m =>
      cases hl' : l'.look ahead with
      | mk r' m' =>
        rw [hl, hl'] at hgiven hnext
        obtain rfl : r = r' := hgiven
        cases r with
        | error fault => exact ⟨rfl, rfl⟩
        | ok tok => exact run_agrees hR (next tok) hnext
  | take next, l, l', h => by
    obtain ⟨hgiven, hnext⟩ := Lookahead.take_agrees hR h
    rw [run, run]
    cases hl : l.take with
    | mk r m =>
      cases hl' : l'.take with
      | mk r' m' =>
        rw [hl, hl'] at hgiven hnext
        obtain rfl : r = r' := hgiven
        cases r with
        | error fault => exact ⟨rfl, rfl⟩
        | ok tok => exact run_agrees hR (next tok) hnext

end

/-! ### A scanner and its finished tokens -/

/-- A scanner that gave the end stays there and gives it again. -/
theorem Scanner.next_end {s s' : Scanner} {tok : Token} (h : s.next = (.ok tok, s'))
    (hk : tok.kind = .eof) : s'.next = (.ok tok, s') := by
  cases gives_of_next h with
  | lexeme _ _ hx hr => exact absurd hk (hx.ne_nil hr).2
  | atEnd _ => exact next_of_rest_nil (List.drop_length)

/-- Does the scanner give the tokens of the tape and then its last one for ever? -/
def Scanner.ReadsTape (s : Scanner) (t : Tape) : Prop :=
  ∃ s', Pulls s t.tokens s' ∧ s'.next = (.ok t.last, s')

/-- **A scanner agrees with the list of its tokens.** -/
theorem agrees_reads : Agrees Scanner.ReadsTape := by
  rintro s ⟨tokens, last⟩ ⟨s', hp, hend⟩
  cases hp with
  | none =>
    have hpull : TokenSource.pull s = (.ok last, s) := hend
    rw [hpull]
    exact ⟨rfl, s, .none s, hend⟩
  | more hpull hs =>
    rw [hpull]
    exact ⟨rfl, s', hs, hend⟩

end ClearSilver
