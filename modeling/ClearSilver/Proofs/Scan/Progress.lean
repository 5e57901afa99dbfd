/-
# A scanner moves on, and stays at its end

A scanner can be put into any mode and at any place, behind its source too. The
next token moves it on by at least one character and not past its source, unless
it is the end, which puts the scanner behind the source, or a fault, which leaves
it where it was (`Scanner.next_progress`). So every token but the end lowers the
number of characters that are left, and the loop that asks for tokens up to the
end or a fault (`Scanner.Drains`) is over after one token more than that number:
it is what `Scanner.drain` gives, whose budget is never spent. Behind the end
there is the end again.

Key definitions: `Scanner.Progress`, `Scanner.Drains`.
Key theorems: `Scanner.next_progress`, `Scanner.drains_of_lt`, `Scanner.drains_iff`,
`Scanner.session_at_end`, `Scanner.next_moves_on`.
-/
import ClearSilver.Proofs.Scan.Stream
import ClearSilver.Session

namespace ClearSilver
namespace Scanner

variable {s s' last last' : Scanner} {tok : Token} {toks toks' : List Token}
  {fault? fault?' : Option LexicalFault}

/-! ### One step -/

/-- What a call for the next token can come to. -/
inductive Progress (s : Scanner) : Except LexicalFault Token × Scanner → Prop
  /-- A fault leaves the scanner as it was. -/
  | stuck (fault : LexicalFault) : Progress s (.error fault, s)
  /-- The end lies behind the source, and the mode stays. -/
  | ended : Progress s (.ok (Token.atEnd s.source.length), ⟨s.source, s.source.length, s.mode⟩)
  /-- Any other token has a text and moves the scanner on, inside its source. -/
  | moved {tok : Token} {pos : Nat} {mode : Mode} (hkind : tok.kind ≠ .eof) (htext : tok.text ≠ [])
      (hlt : s.pos < pos) (hle : pos ≤ s.source.length) : Progress s (.ok tok, ⟨s.source, pos, mode⟩)

/-- **A scanner moves on or stays**, from every mode and place. -/
theorem next_progress (s : Scanner) : s.Progress s.next := by
  rcases s.next_cases with ⟨b, k, x, r, ht, -, hx, hr, hn⟩ | ⟨b, c, r, -, -, hn⟩ | ⟨-, hn⟩
  · obtain ⟨hne, hk⟩ := hx.ne_nil hr
    have hpos : 0 < x.length := List.length_pos_iff.mpr hne
    have hlen := s.length_rest
    rw [ht] at hlen
    simp only [List.length_append] at hlen
    rw [hn]
    refine .moved hk hne ?_ ?_
    · show s.pos < s.pos + b.length + x.length
      omega
    · show s.pos + b.length + x.length ≤ s.source.length
      omega
  · rw [hn]
    exact .stuck _
  · rw [hn]
    exact .ended

/-! ### The loop over the tokens -/

/-- The loop that asks for tokens: it ends with the end or with a fault, and
goes on behind any other token. -/
inductive Drains : Scanner → List Token → Option LexicalFault → Scanner → Prop
  | ended {s s' : Scanner} {tok : Token} (h : s.next = (.ok tok, s')) (hk : tok.kind = .eof) :
      Drains s [tok] none s'
  | stuck {s s' : Scanner} {fault : LexicalFault} (h : s.next = (.error fault, s')) :
      Drains s [] (some fault) s'
  | more {s s' last : Scanner} {tok : Token} {toks : List Token} {fault? : Option LexicalFault}
      (h : s.next = (.ok tok, s')) (hk : tok.kind ≠ .eof) (hs : Drains s' toks fault? last) :
      Drains s (tok :: toks) fault? last

/-- The loop goes one way. -/
theorem Drains.unique (h : s.Drains toks fault? last) (h' : s.Drains toks' fault?' last') :
    toks = toks' ∧ fault? = fault?' ∧ last = last' := by
  induction h generalizing toks' with
  | ended hn hk =>
    cases h' with
    | ended hn' _ =>
      cases hn.symm.trans hn'
      exact ⟨rfl, rfl, rfl⟩
    | stuck hn' => cases hn.symm.trans hn'
    | more hn' hk' _ =>
      cases hn.symm.trans hn'
      exact absurd hk hk'
  | stuck hn =>
    cases h' with
    | ended hn' _ | more hn' _ _ => cases hn.symm.trans hn'
    | stuck hn' =>
      cases hn.symm.trans hn'
      exact ⟨rfl, rfl, rfl⟩
  | more hn hk _ ih =>
    cases h' with
    | ended hn' hk' =>
      cases hn.symm.trans hn'
      exact absurd hk' hk
    | stuck hn' => cases hn.symm.trans hn'
    | more hn' _ hs' =>
      cases hn.symm.trans hn'
      obtain ⟨rfl, rfl, rfl⟩ := ih hs'
      exact ⟨rfl, rfl, rfl⟩

/-- **The loop ends** within any budget greater than the number of the
characters that are left. -/
theorem drains_of_lt : ∀ (n : Nat) (s : Scanner), s.source.length - s.pos < n →
    ∃ toks fault? last, drainUpTo n s = (toks, fault?, last) ∧ s.Drains toks fault? last
  | 0, _, hlt => absurd hlt (Nat.not_lt_zero _)
  | n + 1, s, hlt => by
    have hp := s.next_progress
    generalize hn : s.next = found at hp
    cases hp with
    | stuck fault =>
      exact ⟨[], some fault, s, by simp [drainUpTo, hn], .stuck hn⟩
    | ended => exact ⟨_, none, _, by simp [drainUpTo, hn, Token.atEnd], .ended hn rfl⟩
    | @moved tok pos mode hkind _ hpos hle =>
      have hleft : s.source.length - pos < n := by omega
      obtain ⟨toks, fault?, last, hd, hdrains⟩ := drains_of_lt n ⟨s.source, pos, mode⟩ hleft
      exact ⟨tok :: toks, fault?, last, by simp [drainUpTo, hn, hkind, hd], .more hn hkind hdrains⟩

/-- **All tokens that are left are those of the loop.** -/
theorem drains_iff : s.Drains toks fault? last ↔ s.drain = (toks, fault?, last) := by
  obtain ⟨toks', fault?', last', hd, hdrains⟩ :=
    drains_of_lt (s.source.length - s.pos + 1) s (Nat.lt_succ_self _)
  have hdrain : s.drain = (toks', fault?', last') := hd
  rw [hdrain]
  constructor
  · intro h
    obtain ⟨rfl, rfl, rfl⟩ := hdrains.unique h
    rfl
  · intro h
    cases h
    exact hdrains

/-! ### Behind the end -/

/-- **At its end a scanner stays**, and gives the end whenever it is asked. -/
theorem session_at_end (source : Text) (mode : Mode) : ∀ n : Nat,
    session (List.replicate n .next) ⟨source, source.length, mode⟩ =
      List.replicate n (.token (Token.atEnd source.length), ⟨source, source.length, mode⟩)
  | 0 => rfl
  | n + 1 => by
    have hend : (⟨source, source.length, mode⟩ : Scanner).next =
        (.ok (Token.atEnd source.length), ⟨source, source.length, mode⟩) :=
      next_of_rest_nil List.drop_length
    have hanswer : (⟨source, source.length, mode⟩ : Scanner).answer .next =
        (.token (Token.atEnd source.length), ⟨source, source.length, mode⟩) := by
      rw [answer, hend]
    rw [List.replicate_succ, List.replicate_succ, session, hanswer, session_at_end source mode n]

/-- **A scanner moves on from every mode and place, and its end is stable.** A
call for the next token meets a fault and changes nothing, or reaches the end, or
gives a token with a text and moves the scanner on inside its source. The loop
over the tokens ends, after at most one token more than there are characters
left, and once the end was given every later call gives it again. -/
theorem next_moves_on (s : Scanner) :
    s.Progress s.next ∧
      (∀ toks fault? last, s.Drains toks fault? last ↔ s.drain = (toks, fault?, last)) ∧
      s.drain.1.length ≤ s.source.length - s.pos + 1 ∧
      ∀ tok s', s.next = (.ok tok, s') → tok.kind = .eof → ∀ n,
        session (List.replicate n .next) s' =
          List.replicate n (.token (Token.atEnd s.source.length), s') := by
  refine ⟨s.next_progress, fun _ _ _ => drains_iff, s.length_drain_le, ?_⟩
  intro tok s' hn hk n
  have hp := s.next_progress
  rw [hn] at hp
  cases hp with
  | ended => exact session_at_end s.source s.mode n
  | moved hkind _ _ _ => exact absurd hk hkind

end Scanner
end ClearSilver
