/-
# Scripts that leave blocks open

A script leaves some blocks open behind its tokens if the end of the input
there is the fault of the innermost block, and if the close tag of that block
leaves the others open. A script that leaves none open takes the tokens
(`Script.LeavesOpen`). So it is told at once what the script does at the end
and what it does when the blocks are closed one after the other. A block around
a script is one more block left open (`Script.LeavesOpen.enclose`).

Key definitions: `Script.LeavesOpen`.
Key theorems: `Script.LeavesOpen.behind`, `Script.LeavesOpen.bind`,
`Script.LeavesOpen.enclose`.
-/
import ClearSilver.Block
import ClearSilver.Proofs.Parser.CommandPasses

namespace ClearSilver

namespace Script

open Form

variable {α β : Type}

/-- Are these the blocks that the script is inside of behind these tokens, the
innermost first? -/
def LeavesOpen (s : Script α) (stop : List Token → Prop) : List Token → List OpenBlock → Prop
  | us, [] => ∃ a, s.Takes us a stop
  | us, b :: outer =>
    (∀ last rest, last.kind = .eof →
      s.feed (us ++ last :: rest) = .failed (.unclosed b.keyword b.openTag)) ∧
    ∃ k, b.keyword.kind = .keyword k ∧
      ∀ ts, (phrase (.close k)).Matches ts → LeavesOpen s stop (us ++ ts) outer

namespace LeavesOpen

variable {s s' : Script α} {us vs : List Token} {p stop stop' : List Token → Prop}
  {bs : List OpenBlock}

/-- A script goes on as another one behind its first tokens. -/
theorem behind (h : s.Passes us s' p) : ∀ {bs : List OpenBlock} {vs : List Token},
    s'.LeavesOpen stop vs bs → (∀ rest, p (vs ++ rest)) → s.LeavesOpen stop (us ++ vs) bs
  | [], vs, ⟨a, ha⟩, hp => ⟨a, Passes.trans h ha fun rest _ => hp rest⟩
  | b :: outer, vs, ⟨heof, k, hk, hclose⟩, hp => by
    refine ⟨fun last rest hlast => ?_, k, hk, fun ts hts => ?_⟩
    · rw [List.append_assoc, h _ (hp _)]
      exact heof last rest hlast
    · have hmore : ∀ rest, p (vs ++ ts ++ rest) := fun rest => by
        rw [List.append_assoc]
        exact hp _
      rw [List.append_assoc]
      exact behind h (hclose ts hts) hmore

/-- The first of two scripts takes its tokens and the other one leaves blocks open. -/
theorem after {k : α → Script β} {a : α} (h : s.Takes us a p)
    (hk : (k a).LeavesOpen stop vs bs) (hp : ∀ rest, p (vs ++ rest)) :
    (s.bind k).LeavesOpen stop (us ++ vs) bs :=
  behind (Passes.bind (k := k) h) hk hp

/-- The first of two scripts leaves blocks open, and the other one needs no
token where the first is done. -/
theorem bind {k : α → Script β} (hk : ∀ a, ∃ b, (k a).Takes [] b stop')
    (hstop : ∀ rest, stop' rest → stop rest) : ∀ {bs : List OpenBlock} {us : List Token},
    s.LeavesOpen stop us bs → (s.bind k).LeavesOpen stop' us bs
  | [], us, ⟨a, ha⟩ => by
    obtain ⟨b, hb⟩ := hk a
    refine ⟨b, ?_⟩
    rw [← List.append_nil us]
    exact Takes.bind ha hb hstop
  | b :: outer, us, ⟨heof, k', hk', hclose⟩ => by
    refine ⟨fun last rest hlast => ?_, k', hk', fun ts hts => bind hk hstop (hclose ts hts)⟩
    rw [feed_bind, heof last rest hlast]
    rfl

/-- The result of a script, changed. -/
theorem map (h : s.LeavesOpen stop us bs) (e : α → β) :
    (s.bind fun a => done (e a)).LeavesOpen stop us bs :=
  h.bind (fun a => ⟨e a, .refl _ _⟩) fun _ h => h

/-- **A block around a script is left open** behind the blocks inside it. -/
theorem enclose {openTag keyword : Token} {k : Keyword} (hk : keyword.kind = .keyword k)
    (hstop : ∀ rest, EndsAt (· = .symbol .slash) rest → stop rest) (e : α → β) :
    ∀ {bs : List OpenBlock} {us : List Token}, s.LeavesOpen stop us bs →
      (s.bind fun a => (closeBlock openTag keyword).bind fun _ => done (e a)).LeavesOpen anyRest
        us (bs ++ [⟨openTag, keyword⟩])
  | [], us, ⟨a, ha⟩ => by
    refine ⟨fun last rest hlast => ?_, k, hk, fun ts hts => ⟨e a, ?_⟩⟩
    · rw [feed_bind, ha _ (hstop _ (.inl ⟨last, rest, rfl, hlast⟩))]
      change ((closeBlock openTag keyword).bind fun _ => done (e a)).feed (last :: rest) = _
      rw [feed_bind, closeBlock_eof openTag keyword hlast]
      rfl
    · refine Takes.bind ha ((closeBlock_takes openTag hk hts).map fun _ => e a) fun rest _ => ?_
      exact hstop _ (.inr (tagAhead_of_close hts rest))
  | b :: outer, us, ⟨heof, k', hk', hclose⟩ => by
    refine ⟨fun last rest hlast => ?_, k', hk', fun ts hts => ?_⟩
    · rw [feed_bind, heof last rest hlast]
      rfl
    · exact enclose hk hstop e (hclose ts hts)

end LeavesOpen
end Script
end ClearSilver
