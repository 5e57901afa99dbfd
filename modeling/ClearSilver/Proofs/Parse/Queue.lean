/-
# No token is lost

In every session on a parser, whatever calls are made and whichever of them
fail, the tokens taken and those in the queue are what the scanner gave; the
look that fails keeps the queue and fails again.

Key theorems: `Lookahead.look_fault`, `session_keeps_tokens`.
-/
import ClearSilver.Proofs.Parse.Sound
import ClearSilver.Proofs.Script.Kept

namespace ClearSilver

namespace Lookahead

variable {l l' : Lookahead Scanner} {ahead : Nat} {fault : LexicalFault}

theorem pullMore_fault {s : Scanner} (h : TokenSource.pull l.source = (.error fault, s)) (n : Nat) :
    l.pullMore n = (.error fault, ⟨s, l.queue⟩) := by
  unfold pullMore
  rw [h]

/-- A look that fails keeps the queue in front of what it pulled, and fails
again. -/
theorem look_fault (h : l.look ahead = (.error fault, l')) :
    l.queue <+: l'.queue ∧ l'.source.next = (.error fault, l'.source) ∧
      l'.look ahead = (.error fault, l') := by
  unfold look at h
  cases hq : l.queue[ahead]? with
  | some tok =>
    rw [hq] at h
    cases h
  | none =>
    rw [hq] at h
    have hshort := List.getElem?_eq_none_iff.mp hq
    obtain ⟨toks, s, -, ⟨tok, hmore, -⟩ | ⟨fault', s', hp, hlen, hmore⟩⟩ :=
      l.pullMore_cases (ahead - l.queue.length)
    · rw [hmore] at h
      cases h
    · rw [hmore] at h
      obtain ⟨hfault, rfl⟩ := Prod.mk.inj h
      obtain rfl := Except.error.inj hfault
      obtain rfl : s' = s := Scanner.next_fault hp
      have hnone : (l.queue ++ toks)[ahead]? = none := by
        rw [List.getElem?_eq_none_iff, List.length_append]
        omega
      refine ⟨List.prefix_append _ _, hp, ?_⟩
      simp only [look, hnone]
      exact pullMore_fault hp _

end Lookahead

/-- **No token is lost, doubled or moved**, whatever calls are made on a parser
and whichever of them fail: at each moment of a session the tokens taken and
those in the queue are, in order, what the scanner gave. The moments end with
the runs of the calls. A fault of the scanner leaves it where it was, and a
look that fails keeps the queue and fails again. -/
theorem session_keeps_tokens (source : Text) (pos : Nat) (mode : Mode) (calls : List Call) :
    (∀ m, (SessionMoment.start calls ⟨source, pos, mode⟩).Reaches source m →
      m.intake.taken ++ m.intake.lookahead.queue = m.intake.pulled ∧
        Pulls ⟨source, pos, mode⟩ m.intake.pulled m.intake.lookahead.source) ∧
    (∃ m, (SessionMoment.start calls ⟨source, pos, mode⟩).Reaches source m ∧
      m.next source = none ∧
        m.finished = session source calls (.start ⟨source, pos, mode⟩)) ∧
    (∀ (s s' : Scanner) (fault : LexicalFault), s.next = (.error fault, s') → s' = s) ∧
    ∀ (l l' : Lookahead Scanner) (ahead : Nat) (fault : LexicalFault),
      l.look ahead = (.error fault, l') →
        l.queue <+: l'.queue ∧ l'.source.next = (.error fault, l'.source) ∧
          l'.look ahead = (.error fault, l') := by
  refine ⟨fun m hm => ?_, ?_, fun s s' fault h => Scanner.next_fault h,
    fun l l' ahead fault h => Lookahead.look_fault h⟩
  · have hkept := SessionMoment.kept_of_reaches (Intake.kept_start _) hm
    exact ⟨hkept.tokens, hkept.pulls⟩
  · obtain ⟨last, hreaches⟩ :=
      @SessionMoment.reaches_end source calls [] (.start ⟨source, pos, mode⟩)
    exact ⟨_, hreaches, rfl, rfl⟩

/-- A look that fails, a token taken, the same look again and then an
expression where none stands. -/
theorem session_keeps_tokens_stopped :
    ∃ m, (SessionMoment.start [.peek 4, .advance, .peek 3, .read .expression]
        ⟨"<?cs var:x@ ?>", 5, .command⟩).Reaches "<?cs var:x@ ?>" m ∧
      m.finished.map (fun r => (failure? r.outcome, r.rest.queue.map (·.kind))) =
        [(some (.lexical ⟨.arguments, '@', 10⟩), [.keyword .var, .softDelimiter, .word]),
         (none, [.softDelimiter, .word]),
         (some (.lexical ⟨.arguments, '@', 10⟩), [.softDelimiter, .word]),
         (some (.unexpected .expression ⟨.softDelimiter, ":", 8⟩), [.softDelimiter, .word])] ∧
      m.intake.taken ++ m.intake.lookahead.queue = m.intake.pulled := by
  obtain ⟨hkept, ⟨m, hreaches, -, hfinished⟩, -⟩ := session_keeps_tokens "<?cs var:x@ ?>" 5 .command
    [.peek 4, .advance, .peek 3, .read .expression]
  refine ⟨m, hreaches, ?_, (hkept m hreaches).1⟩
  rw [hfinished]
  decide +kernel

end ClearSilver
