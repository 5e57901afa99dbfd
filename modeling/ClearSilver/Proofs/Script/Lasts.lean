/-
# How long a budget lasts

A script lasts a number of tokens if it does not spend its budget on fewer of
them (`Script.Lasts`). A script in front of another one leaves no more tokens
than it was fed with, and one fewer where it takes one, so the rules count the
requests that take a token: what comes behind such a request may last one
token less.

Key definitions: `Script.Lasts`.
Key theorems: `Script.length_rest_le`, `Script.Lasts.bind`, `Script.Lasts.expect_then`,
`Script.Lasts.accept`.
-/
import ClearSilver.Proofs.Script.Feed

namespace ClearSilver

namespace Script

variable {α β : Type}

/-- A script leaves no more tokens than it was fed with. -/
theorem length_rest_le {a : α} {rest : List Token} {s : Script α} {ts : List Token}
    (h : s.feed ts = .gave a rest) : rest.length ≤ ts.length := by
  induction s generalizing ts with
  | done _ =>
    cases h
    exact Nat.le_refl _
  | fail _ => cases h
  | note event next ih =>
    rw [feed] at h
    exact ih h
  | look ahead next ih =>
    rw [feed] at h
    cases hat : ts[ahead]? with
    | none =>
      rw [hat] at h
      cases h
    | some tok =>
      rw [hat] at h
      exact ih tok h
  | take next ih =>
    cases ts with
    | nil => cases h
    | cons tok ts =>
      rw [feed] at h
      exact Nat.le_succ_of_le (ih tok h)

/-- Is the budget not spent on fewer than `n` tokens? -/
def Lasts (s : Script α) (n : Nat) : Prop :=
  ∀ ts : List Token, ts.length < n → s.feed ts ≠ .failed .exhausted

namespace Lasts

variable {s : Script α} {k : α → Script β} {m n : Nat}

theorem zero (s : Script α) : s.Lasts 0 := fun _ h => absurd h (Nat.not_lt_zero _)

theorem mono (hs : s.Lasts n) (hmn : m ≤ n) : s.Lasts m :=
  fun ts h => hs ts (Nat.lt_of_lt_of_le h hmn)

/-! ### Scripts in a row -/

theorem done (a : α) (n : Nat) : (Script.done a).Lasts n := by
  intro ts _ h
  cases h

theorem fail {fault : Fault} (hf : fault ≠ .exhausted) (n : Nat) :
    (Script.fail fault : Script α).Lasts n := by
  intro ts _ h
  cases h
  exact hf rfl

theorem reject (expected : Expectation) (found : Token) (n : Nat) :
    (Script.reject expected found : Script α).Lasts n :=
  .fail (by simp) n

theorem note {event : Event} {next : Script α} (h : next.Lasts n) :
    (Script.note event next).Lasts n := h

/-- The first script leaves tokens for the next one, and no more than before. -/
theorem bind (hs : s.Lasts n) (hk : ∀ a, (k a).Lasts n) : (s.bind k).Lasts n := by
  intro ts hlt
  rw [feed_bind]
  cases hfed : s.feed ts with
  | waiting => simp [Fed.andThen]
  | failed fault =>
    have hfault : fault ≠ .exhausted := by
      rintro rfl
      exact hs ts hlt hfed
    simpa [Fed.andThen] using hfault
  | gave a rest => exact hk a rest (Nat.lt_of_le_of_lt (length_rest_le hfed) hlt)

theorem map {e : α → β} (hs : s.Lasts n) : (s.bind fun a => Script.done (e a)).Lasts n :=
  .bind hs fun a => .done (e a) n

/-! ### Requests that take a token -/

theorem advance_then {k : Token → Script β} (hk : ∀ tok, (k tok).Lasts m) (hmn : n ≤ m + 1) :
    (Script.advance.bind k).Lasts n := by
  intro ts hlt
  cases ts with
  | nil => simp [Script.advance, Script.bind, feed]
  | cons tok rest =>
    rw [List.length_cons] at hlt
    exact hk tok rest (by omega)

theorem expect_then {kind : Token.Kind} {expected : Expectation} {k : Token → Script β}
    (hk : ∀ tok, (k tok).Lasts m) (hmn : n ≤ m + 1) :
    ((Script.expect kind expected).bind k).Lasts n := by
  intro ts hlt
  cases ts with
  | nil => simp [Script.expect, Script.bind, feed]
  | cons tok rest =>
    simp only [Script.expect, Script.bind, feed, List.getElem?_cons_zero]
    by_cases htok : tok.kind = kind
    · rw [if_pos htok]
      exact advance_then hk hmn (tok :: rest) hlt
    · rw [if_neg htok]
      simp [Script.reject, Script.bind, feed]

theorem expect (kind : Token.Kind) (expected : Expectation) (n : Nat) :
    (Script.expect kind expected).Lasts n := by
  rw [← bind_done (Script.expect kind expected)]
  exact expect_then (fun tok => .done tok n) (Nat.le_succ n)

/-- A token of some kinds is taken if one stands there. -/
theorem accept {kinds : List Token.Kind} {k : Option Token → Script β}
    (hsome : ∀ tok, (k (some tok)).Lasts m) (hnone : (k none).Lasts n) (hmn : n ≤ m + 1) :
    ((Script.accept kinds).bind k).Lasts n := by
  intro ts hlt
  cases ts with
  | nil => simp [Script.accept, Script.bind, feed]
  | cons tok rest =>
    rw [feed_accept]
    by_cases htok : tok.kind ∈ kinds
    · rw [if_pos htok]
      rw [List.length_cons] at hlt
      exact hsome tok rest (by omega)
    · rw [if_neg htok]
      exact hnone (tok :: rest) hlt

/-! ### Requests that take none -/

theorem look {ahead : Nat} {next : Token → Script β} (hk : ∀ tok, (next tok).Lasts n) :
    (Script.look ahead next).Lasts n := by
  intro ts hlt
  rw [feed]
  cases ts[ahead]? with
  | none => simp
  | some tok => exact hk tok ts hlt

theorem peek {ahead : Nat} {k : Token → Script β} (hk : ∀ tok, (k tok).Lasts n) :
    ((Script.peek ahead).bind k).Lasts n := .look hk

theorem ask {kinds : List Token.Kind} {k : Bool → Script β} (hk : ∀ b, (k b).Lasts n) :
    ((at? kinds).bind k).Lasts n := .look fun tok => hk (kinds.contains tok.kind)

end Lasts

end Script
end ClearSilver
