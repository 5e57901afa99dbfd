/-
# What a script passes over

A script passes over some tokens to another script if, fed with them and any
rest that stops it, it goes on as the other one does with the rest
(`Script.Passes`); it takes them for a result if it passes over them to that
result (`Script.Takes`). Where a script looks one token ahead, the rest has to
begin with one of other kinds (`Clear`). Passes are put together as the scripts
are.

Key definitions: `Script.Passes`, `Script.Takes`, `Clear`.
Key theorems: `Script.Passes.trans`, `Script.Passes.bind`, `Script.Passes.accept`,
`Script.Passes.skip`, `Script.takes_expect`.
-/
import ClearSilver.Proofs.Script.Feed

namespace ClearSilver

/-- Does the rest begin with a token of none of these kinds? -/
def Clear (p : Token.Kind → Prop) (rest : List Token) : Prop :=
  ∃ tok ts, rest = tok :: ts ∧ ¬ p tok.kind

theorem Clear.cons {p : Token.Kind → Prop} {tok : Token} (h : ¬ p tok.kind) (ts : List Token) :
    Clear p (tok :: ts) := ⟨tok, ts, rfl, h⟩

theorem Clear.weaken {p q : Token.Kind → Prop} {rest : List Token} (h : Clear p rest)
    (hqp : ∀ k, q k → p k) : Clear q rest := by
  obtain ⟨tok, ts, rfl, hp⟩ := h
  exact ⟨tok, ts, rfl, fun hq => hp (hqp _ hq)⟩

namespace Script

variable {α β : Type}

/-- Does the script go on as the other one behind these tokens, if the rest stops it? -/
def Passes (s : Script α) (ts : List Token) (s' : Script α) (stop : List Token → Prop) : Prop :=
  ∀ rest, stop rest → s.feed (ts ++ rest) = s'.feed rest

/-- Does the script take these tokens for the result, if the rest stops it? -/
abbrev Takes (s : Script α) (ts : List Token) (a : α) (stop : List Token → Prop) : Prop :=
  s.Passes ts (done a) stop

/-- Any rest will do. -/
abbrev anyRest : List Token → Prop := fun _ => True

variable {s s' s'' : Script α} {us vs : List Token} {p q : List Token → Prop}

theorem Passes.refl (s : Script α) (p : List Token → Prop) : s.Passes [] s p := fun _ _ => rfl

theorem Passes.weaken (h : s.Passes us s' p) (hqp : ∀ rest, q rest → p rest) : s.Passes us s' q :=
  fun rest hq => h rest (hqp rest hq)

/-- Passes in a row, where the tokens of the second stop the first. -/
theorem Passes.trans (h : s.Passes us s' p) (h' : s'.Passes vs s'' q)
    (hqp : ∀ rest, q rest → p (vs ++ rest)) : s.Passes (us ++ vs) s'' q := by
  intro rest hq
  rw [List.append_assoc, h _ (hqp rest hq)]
  exact h' rest hq

theorem Passes.bind {k : α → Script β} (h : s.Passes us s' p) :
    (s.bind k).Passes us (s'.bind k) p := by
  intro rest hp
  rw [feed_bind, feed_bind, h rest hp]

/-- The first of two scripts takes its tokens and the other one goes on. -/
theorem Takes.bind {k : α → Script β} {a : α} {b : Script β} (h : s.Takes us a p)
    (hk : (k a).Passes vs b q) (hqp : ∀ rest, q rest → p (vs ++ rest)) :
    (s.bind k).Passes (us ++ vs) b q :=
  Passes.trans (Passes.bind h) hk hqp

/-- A result, changed. -/
theorem Takes.map {a : α} (h : s.Takes us a p) (e : α → β) :
    (s.bind fun a => done (e a)).Takes us (e a) p :=
  Passes.bind (k := fun a => done (e a)) h

/-! ### Requests -/

variable {kinds : List Token.Kind} {k : Option Token → Script β} {b : Script β} {tok : Token}

theorem Passes.ask_true {k : Bool → Script β} (htok : tok.kind ∈ kinds)
    (h : (k true).Passes (tok :: us) b p) : ((at? kinds).bind k).Passes (tok :: us) b p := by
  intro rest hp
  rw [List.cons_append, feed_ask, decide_eq_true htok]
  exact h rest hp

theorem Passes.ask_false {k : Bool → Script β} (htok : tok.kind ∉ kinds)
    (h : (k false).Passes (tok :: us) b p) : ((at? kinds).bind k).Passes (tok :: us) b p := by
  intro rest hp
  rw [List.cons_append, feed_ask, decide_eq_false htok]
  exact h rest hp

/-- A token that is accepted is taken. -/
theorem Passes.accept (htok : tok.kind ∈ kinds) (h : (k (some tok)).Passes us b p) :
    ((Script.accept kinds).bind k).Passes (tok :: us) b p := by
  intro rest hp
  exact ((feed_accept _ _ _ _).trans (if_pos htok)).trans (h rest hp)

/-- A token that is not accepted stays. -/
theorem Passes.skip (htok : tok.kind ∉ kinds) (h : (k none).Passes (tok :: us) b p) :
    ((Script.accept kinds).bind k).Passes (tok :: us) b p := by
  intro rest hp
  exact ((feed_accept _ _ _ _).trans (if_neg htok)).trans (h rest hp)

/-- No token is taken where none is accepted. -/
theorem Passes.skip_rest (hp : ∀ rest, p rest → Clear (· ∈ kinds) rest)
    (h : (k none).Passes [] b p) : ((Script.accept kinds).bind k).Passes [] b p := by
  intro rest hrest
  obtain ⟨tok, ts, rfl, htok⟩ := hp rest hrest
  exact ((feed_accept _ _ _ _).trans (if_neg htok)).trans (h _ hrest)

/-- The first of two scripts takes one token and the other one goes on. -/
theorem Takes.cons {α : Type} {s : Script α} {a : α} {k : α → Script β}
    (h : s.Takes [tok] a anyRest) (hk : (k a).Passes us b p) :
    (s.bind k).Passes (tok :: us) b p :=
  Takes.bind h hk fun _ _ => trivial

theorem takes_expect {kind : Token.Kind} (expected : Expectation) (h : tok.kind = kind) :
    (expect kind expected).Takes [tok] tok anyRest := by
  intro rest _
  simp only [expect, feed, List.singleton_append, List.getElem?_cons_zero, h, if_true]
  rfl

theorem Passes.advance {k : Token → Script β} (h : (k tok).Passes us b p) :
    (Script.advance.bind k).Passes (tok :: us) b p := h

/-- What is looked at stays. -/
theorem Passes.look {next : Token → Script α} (h : (next tok).Passes (tok :: us) s' p) :
    (Script.look 0 next).Passes (tok :: us) s' p := h

theorem Passes.peek {k : Token → Script α} (h : (k tok).Passes (tok :: us) s' p) :
    ((Script.peek 0).bind k).Passes (tok :: us) s' p := h

end Script
end ClearSilver
