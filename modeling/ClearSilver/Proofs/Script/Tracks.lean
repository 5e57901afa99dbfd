/-
# What a script knows of the open blocks

A script tracks the open blocks if, fed with any tokens, what it takes stands
in a relation to the blocks that are open behind it: to none where it gives a
result, and where it says that a block is open at the end, to that block as the
innermost one (`Script.Tracks`). Other faults tell nothing of blocks. Scripts
that leave no block open are tracked by what they read and keep
(`Script.Tracks.of_reads`); a script in front of another one is passed with
nothing open.

Key definitions: `Script.Fed.Tracks`, `Script.Tracks`.
Key theorems: `Script.Tracks.bind`, `Script.Tracks.tagAhead`,
`Script.used_of_gave`, `Script.Tracks.of_reads`.
-/
import ClearSilver.Block
import ClearSilver.Proofs.Parser.CommandReads
import ClearSilver.Proofs.Script.Keeps

namespace ClearSilver

namespace Script

variable {α β : Type}

/-- How a script ends on these tokens that tracks the open blocks. -/
inductive Fed.Tracks (P : List Token → List OpenBlock → Prop) (ts : List Token) : Fed α → Prop
  | gave {a : α} {used rest : List Token} (hts : ts = used ++ rest) (hP : P used []) :
      Tracks P ts (.gave a rest)
  | unexpected (expected : Expectation) (found : Token) :
      Tracks P ts (.failed (.unexpected expected found))
  | unclosed {used rest : List Token} {last keyword openTag : Token} {blocks : List OpenBlock}
      (hts : ts = used ++ last :: rest) (hlast : last.kind = .eof)
      (hin : blocks.head? = some ⟨openTag, keyword⟩) (hP : P used blocks) :
      Tracks P ts (.failed (.unclosed keyword openTag))
  | exhausted : Tracks P ts (.failed .exhausted)
  | waiting : Tracks P ts .waiting

/-- Does what the script takes always stand in the relation to the blocks that
are open behind it? -/
def Tracks (s : Script α) (P : List Token → List OpenBlock → Prop) : Prop :=
  ∀ ts, (s.feed ts).Tracks P ts

variable {P Q R : List Token → List OpenBlock → Prop} {s : Script α} {k : α → Script β}

/-- What comes behind tokens that were taken. -/
theorem Fed.Tracks.behind {fed : Fed β} {ts : List Token} (us : List Token)
    (h : fed.Tracks (fun vs bs => R (us ++ vs) bs) ts) : fed.Tracks R (us ++ ts) := by
  cases h with
  | @gave b used rest hts hR =>
    have hcut : us ++ ts = (us ++ used) ++ rest := by rw [hts, List.append_assoc]
    exact .gave hcut hR
  | unexpected expected found => exact .unexpected expected found
  | @unclosed used rest last keyword openTag blocks hts hlast hin hR =>
    have hcut : us ++ ts = (us ++ used) ++ last :: rest := by rw [hts, List.append_assoc]
    exact .unclosed hcut hlast hin hR
  | exhausted => exact .exhausted
  | waiting => exact .waiting

namespace Tracks

theorem done {a : α} (hP : P [] []) : (Script.done a).Tracks P := fun _ => .gave rfl hP

/-- The first script leaves a block open, or it is done and the next one goes on. -/
theorem bind (hs : s.Tracks P)
    (hopen : ∀ us bs b, P us bs → bs.head? = some b → ∃ cs, cs.head? = some b ∧ R us cs)
    (hk : ∀ a us, P us [] → (k a).Tracks fun vs bs => R (us ++ vs) bs) :
    (s.bind k).Tracks R := by
  intro ts
  rw [feed_bind]
  have hts := hs ts
  generalize s.feed ts = fed at hts
  cases hts with
  | @gave a us rest hcut hP =>
    rw [hcut]
    exact (hk a us hP rest).behind us
  | unexpected expected found => exact .unexpected expected found
  | unclosed hcut hlast hin hP =>
    obtain ⟨cs, hcs, hR⟩ := hopen _ _ _ hP hin
    exact .unclosed hcut hlast hcs hR
  | exhausted => exact .exhausted
  | waiting => exact .waiting

/-- The result of a script, changed. -/
theorem map {e : α → β} (hs : s.Tracks P) (hPR : ∀ us bs, P us bs → R us bs) :
    (s.bind fun a => Script.done (e a)).Tracks R := by
  refine bind hs (fun us bs b h hb => ⟨bs, hb, hPR us bs h⟩) fun a us h => done ?_
  rw [List.append_nil]
  exact hPR us [] h

/-- A token of some kind is taken. -/
theorem expect {kind : Token.Kind} {expected : Expectation} {k : Token → Script β}
    (hk : ∀ tok, tok.kind = kind → (k tok).Tracks fun us bs => R (tok :: us) bs) :
    ((Script.expect kind expected).bind k).Tracks R := by
  intro ts
  cases ts with
  | nil => exact .waiting
  | cons tok rest =>
    simp only [Script.expect, Script.bind, feed, List.getElem?_cons_zero]
    by_cases htok : tok.kind = kind
    · rw [if_pos htok]
      exact Fed.Tracks.behind [tok] (hk tok htok rest)
    · rw [if_neg htok]
      exact .unexpected expected tok

/-- The next token is taken, whatever it is. -/
theorem any_token {k : Token → Script β}
    (hk : ∀ tok, (k tok).Tracks fun us bs => R (tok :: us) bs) :
    (Script.advance.bind k).Tracks R := by
  intro ts
  cases ts with
  | nil => exact .waiting
  | cons tok rest => exact Fed.Tracks.behind [tok] (hk tok rest)

/-- A tag that begins with some kind of token is taken if it stands there. -/
theorem tagAhead {kind : Token.Kind} {next : Bool → Script β} {k : Token → Token → Script β}
    (hnext : next true = advance.bind fun t => advance.bind (k t))
    (htag : ∀ t t' : Token, t.kind = .tagOpen → t'.kind = kind →
      (k t t').Tracks fun us bs => R (t :: t' :: us) bs)
    (hnone : (next false).Tracks R) : ((Script.tagAhead kind).bind next).Tracks R := by
  intro ts
  rcases tagAhead_cases hnext ts with ⟨-, hfed⟩ | ⟨t, -, -, hfed⟩ |
    ⟨t, t', rest, rfl, ht, ht', hfed⟩ | hfed <;> rw [hfed]
  · exact .waiting
  · exact .waiting
  · exact Fed.Tracks.behind [t, t'] (htag t t' ht ht' rest)
  · exact hnone ts

end Tracks

/-! ### Scripts that leave no block open -/

variable {f : Form} {F : List Token → α → Prop} {K : List Token → α → Prop} {mayLeaveOpen : Prop}

/-- What a script takes matches its form and is kept. -/
theorem used_of_gave (hr : s.Reads f F) (hk : s.Keeps K mayLeaveOpen) {ts rest : List Token} {a : α}
    (h : s.feed ts = .gave a rest) : ∃ us, ts = us ++ rest ∧ f.Matches us ∧ K us a := by
  obtain ⟨us, hus, hK⟩ := hk.used h
  have hts := hr ts
  rw [h] at hts
  cases hts with
  | @gave _ vs _ hvs hf _ =>
    obtain rfl := List.append_cancel_right (hus.symm.trans hvs)
    exact ⟨us, hus, hf, hK⟩

/-- No block is open where none can be left open. -/
theorem Tracks.of_keeps (hk : s.Keeps K False) : s.Tracks fun us bs => bs ≠ [] → P us bs := by
  intro ts
  have hts := hk ts
  generalize s.feed ts = fed at hts
  cases hts with
  | gave hts _ => exact .gave hts fun h => absurd rfl h
  | unexpected expected found => exact .unexpected expected found
  | unclosed h _ _ => exact h.elim
  | exhausted => exact .exhausted
  | waiting => exact .waiting

/-- What a script leaves open, and what it takes where it is done. -/
theorem Tracks.of_open (hs : s.Tracks fun us bs => bs ≠ [] → P us bs)
    (hgave : ∀ ts a rest, s.feed ts = .gave a rest → ∃ us, ts = us ++ rest ∧ P us []) :
    s.Tracks P := by
  intro ts
  have hts := hs ts
  cases hfed : s.feed ts with
  | gave a rest =>
    obtain ⟨us, hus, hP⟩ := hgave ts a rest hfed
    exact .gave hus hP
  | waiting => exact .waiting
  | failed fault =>
    rw [hfed] at hts
    cases hts with
    | unexpected expected found => exact .unexpected expected found
    | exhausted => exact .exhausted
    | unclosed hcut hlast hin hP =>
      refine .unclosed hcut hlast hin (hP ?_)
      rintro rfl
      cases hin

theorem Tracks.of_reads (hr : s.Reads f F) (hk : s.Keeps K False)
    (hP : ∀ us a, f.Matches us → K us a → P us []) : s.Tracks P := by
  refine .of_open (.of_keeps hk) fun ts a rest h => ?_
  obtain ⟨us, hus, hf, hK⟩ := used_of_gave hr hk h
  exact ⟨us, hus, hP us a hf hK⟩

end Script
end ClearSilver
