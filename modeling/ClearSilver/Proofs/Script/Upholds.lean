/-
# Rules of a run

A rule asks something of every moment of a run: of the queue, of the moments
at which an event is noted and of the tokens that were pulled when a fault
stops it. Whether a script keeps a rule is said by recursion on the script, for
any tokens the source may give (`Script.Upholds`), with one lemma for each
request. A step of a run hands this on, so each moment that is reached keeps
the rule (`Moment.upholds_of_reaches`).

A script is modest if it reads a part of a tag and keeps each rule that lets
the queue hold one token there and lets the run stop at the token that was
pulled last; it looks at no token behind the next one, and takes no end of a
tag (`Script.Modest`).

Key definitions: `Rule`, `Script.Upholds`, `Expectation.OfTag`, `Rule.Lenient`,
`Script.Modest`.
Key theorems: `Script.Upholds.bind`, `Moment.upholds_next`,
`Moment.upholds_of_reaches`, `Script.Modest.bind`.
-/
import ClearSilver.Proofs.Script.Kept

namespace ClearSilver

/-- What is asked of the moments of a run. -/
structure Rule where
  /-- What is known of the tokens that a source gives. -/
  given : List Token → Prop
  /-- What is known of the tokens taken where a tag is read. -/
  inside : List Token → Prop
  /-- What the queue may hold. -/
  queue : List Token → Prop
  /-- Where an event may be noted, by the tokens taken and those in the queue. -/
  event : Event → List Token → List Token → Prop
  /-- Which faults may stop a run that pulled these tokens. -/
  fault : Fault → List Token → Prop

namespace Script

variable {α β : Type} {R : Rule} {post post' : α → List Token → List Token → Prop}
  {taken queue : List Token}

/-- Does the script keep the rule from a moment on at which some tokens are
taken and some are in the queue, and end as `post` says? -/
def Upholds (R : Rule) (post : α → List Token → List Token → Prop) :
    Script α → List Token → List Token → Prop
  | done a, taken, queue => post a taken queue
  | fail fault, taken, queue => R.fault fault (taken ++ queue)
  | note event next, taken, queue => R.event event taken queue ∧ next.Upholds R post taken queue
  | look ahead next, taken, queue => ∀ more, R.given (taken ++ (queue ++ more)) →
      queue.length + more.length ≤ max queue.length (ahead + 1) →
        R.queue (queue ++ more) ∧ ∀ tok, (queue ++ more)[ahead]? = some tok →
          (next tok).Upholds R post taken (queue ++ more)
  | take next, taken, tok :: queue =>
      R.queue queue ∧ (next tok).Upholds R post (taken ++ [tok]) queue
  | take next, taken, [] => ∀ tok, R.given (taken ++ [tok]) →
      R.queue [tok] ∧ R.queue [] ∧ (next tok).Upholds R post (taken ++ [tok]) []

namespace Upholds

/-- A script may end better than is asked for. -/
theorem mono (hpost : ∀ a taken queue, post a taken queue → post' a taken queue) :
    ∀ {s : Script α} {taken queue : List Token}, s.Upholds R post taken queue →
      s.Upholds R post' taken queue
  | .done _, _, _, h => hpost _ _ _ h
  | .fail _, _, _, h => h
  | .note _ _, _, _, h => ⟨h.1, mono hpost h.2⟩
  | .look _ _, _, _, h => fun more hgiven hle =>
    ⟨(h more hgiven hle).1, fun tok htok => mono hpost ((h more hgiven hle).2 tok htok)⟩
  | .take _, _, _ :: _, h => ⟨h.1, mono hpost h.2⟩
  | .take _, _, [], h => fun tok hgiven =>
    ⟨(h tok hgiven).1, (h tok hgiven).2.1, mono hpost (h tok hgiven).2.2⟩

/-- Two scripts in a row: the second keeps the rule where the first ends. -/
theorem bind {k : α → Script β} {post : β → List Token → List Token → Prop} :
    ∀ {s : Script α} {taken queue : List Token},
      s.Upholds R (fun a taken queue => (k a).Upholds R post taken queue) taken queue →
        (s.bind k).Upholds R post taken queue
  | .done _, _, _, h => h
  | .fail _, _, _, h => h
  | .note _ _, _, _, h => ⟨h.1, bind h.2⟩
  | .look _ _, _, _, h => fun more hgiven hle =>
    ⟨(h more hgiven hle).1, fun tok htok => bind ((h more hgiven hle).2 tok htok)⟩
  | .take _, _, _ :: _, h => ⟨h.1, bind h.2⟩
  | .take _, _, [], h => fun tok hgiven =>
    ⟨(h tok hgiven).1, (h tok hgiven).2.1, bind (h tok hgiven).2.2⟩

/-- The second script keeps the rule wherever the first may end. -/
theorem andThen {s : Script α} {k : α → Script β} {post' : β → List Token → List Token → Prop}
    (hs : s.Upholds R post taken queue)
    (hk : ∀ a taken queue, post a taken queue → (k a).Upholds R post' taken queue) :
    (s.bind k).Upholds R post' taken queue := bind (mono hk hs)

/-- A look at a token that is in the queue pulls nothing. -/
theorem look_found {ahead : Nat} {next : Token → Script α} {tok : Token}
    (htok : queue[ahead]? = some tok) (hqueue : R.queue queue)
    (h : (next tok).Upholds R post taken queue) : (look ahead next).Upholds R post taken queue := by
  intro more _ hle
  have hlt := (List.getElem?_eq_some_iff.mp htok).1
  -- the queue is long enough already, so the bound leaves no room for more
  have hnil : more = [] := List.eq_nil_of_length_eq_zero (by omega)
  rw [hnil, List.append_nil]
  refine ⟨hqueue, fun tok' htok' => ?_⟩
  obtain rfl : tok = tok' := Option.some.inj (htok.symm.trans htok')
  exact h

/-- A look at the token behind the queue pulls it. -/
theorem look_behind {ahead : Nat} {next : Token → Script α} (hahead : queue.length = ahead)
    (hqueue : R.queue queue) (h : ∀ tok, R.given (taken ++ (queue ++ [tok])) →
      R.queue (queue ++ [tok]) ∧ (next tok).Upholds R post taken (queue ++ [tok])) :
    (look ahead next).Upholds R post taken queue := by
  intro more hgiven hle
  rw [← hahead] at hle ⊢
  match more with
  | [] =>
    refine ⟨by rwa [List.append_nil], fun tok htok => ?_⟩
    rw [List.append_nil, List.getElem?_eq_none (Nat.le_refl _)] at htok
    cases htok
  | [tok] =>
    obtain ⟨hmore, hnext⟩ := h tok hgiven
    refine ⟨hmore, fun tok' htok' => ?_⟩
    rw [List.getElem?_concat_length] at htok'
    obtain rfl := Option.some.inj htok'
    exact hnext
  | _ :: _ :: _ =>
    simp only [List.length_cons] at hle
    omega

end Upholds
end Script

/-! ### Runs -/

namespace Moment

variable {α : Type} {R : Rule} {post : α → List Token → List Token → Prop} {start : Scanner}
  {m m' : Moment Scanner α}

/-- Is the queue as the rule asks, and is the rule kept from this moment on? -/
structure Upholds (R : Rule) (post : α → List Token → List Token → Prop)
    (m : Moment Scanner α) : Prop where
  queue : R.queue m.intake.lookahead.queue
  script : m.script.Upholds R post m.intake.taken m.intake.lookahead.queue

/-- A pull hands the rule on. -/
theorem Upholds.pull {script : Script α} {taken queue : List Token} {tok : Token}
    (hw : script.Waits queue) (hgiven : R.given (taken ++ (queue ++ [tok])))
    (h : script.Upholds R post taken queue) :
    R.queue (queue ++ [tok]) ∧ script.Upholds R post taken (queue ++ [tok]) := by
  cases script with
  | done _ => exact hw.elim
  | fail _ => exact hw.elim
  | note _ _ => exact hw.elim
  | take next =>
    obtain rfl : queue = [] := hw
    obtain ⟨hone, hnone, hnext⟩ := h tok hgiven
    exact ⟨hone, hnone, hnext⟩
  | look ahead next =>
    have hshort : queue.length ≤ ahead := hw
    have hlen : (queue ++ [tok]).length = queue.length + 1 := List.length_append
    refine ⟨(h [tok] hgiven ?_).1, fun more hgiven' hle => ?_⟩
    · rw [List.length_singleton]
      omega
    · -- what is pulled later comes behind this token
      rw [List.append_assoc] at hgiven' ⊢
      refine h ([tok] ++ more) hgiven' ?_
      rw [hlen] at hle
      rw [List.length_append, List.length_singleton]
      omega

/-- **A step hands the rule on.** -/
theorem upholds_next (hR : ∀ toks s, Pulls start toks s → R.given toks)
    (hkept : m.intake.Kept start) (h : m.Upholds R post) (hn : m.next = .goes m') :
    m'.Upholds R post := by
  have hkept' := kept_next hkept hn
  have hgiven : R.given (m'.intake.taken ++ m'.intake.lookahead.queue) := by
    rw [hkept'.tokens]
    exact hR _ _ hkept'.pulls
  cases then_of_next hn with
  | note => exact ⟨h.queue, h.script.2⟩
  | @look ahead script events p tok hq =>
    have hall := h.script []
    rw [List.append_nil] at hall
    obtain ⟨-, hnext⟩ := hall hgiven (Nat.le_max_left _ _)
    exact ⟨h.queue, hnext tok hq⟩
  | @take script events p tok queue hq =>
    have hscript := h.script
    rw [hq] at hscript
    exact ⟨hscript.1, hscript.2⟩
  | @pull script events p p' hw hp =>
    obtain ⟨tok, source, -, rfl⟩ := Intake.exists_of_pull hp
    obtain ⟨hqueue, hscript⟩ := Upholds.pull hw hgiven h.script
    exact ⟨hqueue, hscript⟩

/-- **Each moment of a run keeps the rule** if the first one does. -/
theorem upholds_of_reaches (hR : ∀ toks s, Pulls start toks s → R.given toks)
    (hkept : m.intake.Kept start) (h : m.Upholds R post) (hr : m.Reaches m') :
    m'.Upholds R post := by
  induction hr with
  | refl => exact h
  | tail hr hn ih => exact upholds_next hR (kept_of_reaches hkept hr) ih hn

/-- A run that keeps the rule stops where the scanner does or as the rule says. -/
theorem Upholds.fault {fault : Fault} {last : Intake Scanner} (hkept : m.intake.Kept start)
    (h : m.Upholds R post) (hn : m.next = .ends (.error fault) last) :
    (∃ f, fault = .lexical f ∧ last.lookahead.source.next = (.error f, last.lookahead.source)) ∨
      R.fault fault last.pulled := by
  cases then_of_next hn with
  | fail =>
    rw [← hkept.tokens]
    exact .inr h.script
  | stuck _ hp =>
    obtain ⟨rfl, hnext⟩ := Intake.pull_fault hp
    exact .inl ⟨_, rfl, hnext⟩

end Moment

/-! ### Modest scripts -/

/-- Can this be expected where the parts of a tag are read? -/
def Expectation.OfTag : Expectation → Prop
  | commandOrEnd | commandKeyword | tagOpen | phrase _ => False
  | tagClose | delimiterAfter _ | closeOf _ | symbol _ | macroName | string | expression | number
  | variableName | nameAfterDot | endOfExpression => True

/-- Inside of a tag, up to its end: may the queue hold one token, and may a run
stop at the last one? -/
structure Rule.Lenient (R : Rule) : Prop where
  queue : ∀ ts, ts.length ≤ 1 → R.queue ts
  inside : ∀ taken tok, R.inside taken → tok.kind ≠ .tagClose → R.inside (taken ++ [tok])
  unexpected : ∀ expected found taken, expected.OfTag → R.inside taken →
    R.fault (.unexpected expected found) (taken ++ [found])
  exhausted : ∀ ts, R.fault .exhausted ts

/-- Is a tag read here, with one token in the queue or none? -/
def Rule.Within (R : Rule) (taken queue : List Token) : Prop := R.inside taken ∧ queue.length ≤ 1

namespace Script

variable {α β : Type} {R : Rule} {post : α → List Token → List Token → Prop}
  {taken queue : List Token}

namespace Upholds

/-- A look at the next token, which is pulled if the queue is empty. -/
theorem look_next (hR : R.Lenient) {next : Token → Script α} (hq : queue.length ≤ 1)
    (h : ∀ tok, (queue = [] → R.given (taken ++ [tok])) →
      (next tok).Upholds R post taken [tok]) : (look 0 next).Upholds R post taken queue := by
  match queue with
  | [] =>
    exact look_behind rfl (hR.queue [] (Nat.zero_le 1)) fun tok hgiven =>
      ⟨hR.queue [tok] (Nat.le_refl 1), h tok fun _ => hgiven⟩
  | [tok] => exact look_found rfl (hR.queue [tok] (Nat.le_refl 1)) (h tok nofun)

/-- The only token of the queue is taken. -/
theorem take_front (hR : R.Lenient) {next : Token → Script α} {tok : Token}
    (h : (next tok).Upholds R post (taken ++ [tok]) []) :
    (take next).Upholds R post taken [tok] :=
  ⟨hR.queue [] (Nat.zero_le 1), h⟩

theorem reject_last (hR : R.Lenient) {expected : Expectation} (he : expected.OfTag)
    (found : Token) (hin : R.inside taken) :
    (reject expected found : Script α).Upholds R post taken [found] :=
  hR.unexpected expected found taken he hin

/-- A token of a kind that is asked for is taken, and no other. -/
theorem expect (hR : R.Lenient) {kind : Token.Kind} {expected : Expectation}
    {post : Token → List Token → List Token → Prop} (he : expected.OfTag)
    (hw : R.Within taken queue) (h : ∀ tok, tok.kind = kind → post tok (taken ++ [tok]) []) :
    (Script.expect kind expected).Upholds R post taken queue := by
  refine look_next hR hw.2 fun tok _ => ?_
  by_cases hk : tok.kind = kind
  · rw [if_pos hk]
    exact take_front hR (h tok hk)
  · rw [if_neg hk]
    exact reject_last hR he tok hw.1

end Upholds

/-- Does the script keep every lenient rule inside of a tag, from one token in
the queue to one token in the queue? -/
def Modest (s : Script α) : Prop :=
  ∀ R : Rule, R.Lenient → ∀ taken queue : List Token, R.Within taken queue →
    s.Upholds R (fun _ => R.Within) taken queue

/-- The same where this token is in the queue. -/
def ModestAt (tok : Token) (s : Script α) : Prop :=
  ∀ R : Rule, R.Lenient → ∀ taken : List Token, R.inside taken →
    s.Upholds R (fun _ => R.Within) taken [tok]

namespace ModestAt

variable {s : Script α} {k : α → Script β} {tok : Token}

theorem reject {expected : Expectation} (he : expected.OfTag) (found : Token) :
    (Script.reject expected found : Script α).ModestAt found :=
  fun _ hR _ hin => .reject_last hR he found hin

/-- A token that does not end the tag is taken. -/
theorem advance (hk : tok.kind ≠ .tagClose) : Script.advance.ModestAt tok :=
  fun _ hR taken hin => .take_front hR ⟨hR.inside taken tok hin hk, Nat.zero_le 1⟩

theorem bind (hs : s.ModestAt tok) (hk : ∀ a, (k a).Modest) : (s.bind k).ModestAt tok :=
  fun R hR taken hin => (hs R hR taken hin).andThen fun a => hk a R hR

end ModestAt

namespace Modest

variable {s : Script α} {k : α → Script β} {tok : Token}

theorem here (h : s.Modest) : s.ModestAt tok :=
  fun R hR taken hin => h R hR taken [tok] ⟨hin, Nat.le_refl 1⟩

theorem done (a : α) : (Script.done a).Modest := fun _ _ _ _ hw => hw

theorem exhausted : (Script.fail .exhausted : Script α).Modest :=
  fun _ hR taken queue _ => hR.exhausted (taken ++ queue)

theorem bind (hs : s.Modest) (hk : ∀ a, (k a).Modest) : (s.bind k).Modest :=
  fun R hR taken queue hw => (hs R hR taken queue hw).andThen fun a => hk a R hR

theorem map {e : α → β} (hs : s.Modest) : (s.bind fun a => Script.done (e a)).Modest :=
  hs.bind fun a => done (e a)

/-- What follows a look at the next token may stop the run at it. -/
theorem peek {k : Token → Script β} (hk : ∀ tok, (k tok).ModestAt tok) :
    ((Script.peek 0).bind k).Modest :=
  fun R hR taken _ hw => .look_next hR hw.2 fun tok _ => hk tok R hR taken hw.1

theorem ask (kinds : List Token.Kind) : (at? kinds).Modest :=
  fun _ hR _ _ hw => .look_next hR hw.2 fun _ _ => ⟨hw.1, Nat.le_refl 1⟩

/-- A token of some kinds is taken if one stands there. -/
theorem accept {kinds : List Token.Kind} {k : Option Token → Script β}
    (hkinds : .tagClose ∉ kinds) (hsome : ∀ tok, (k (some tok)).Modest) (hnone : (k none).Modest) :
    ((Script.accept kinds).bind k).Modest := by
  intro R hR taken queue hw
  refine .bind (.look_next hR hw.2 fun tok _ => ?_)
  cases hmem : kinds.contains tok.kind with
  | true =>
    have hk : tok.kind ≠ .tagClose := fun hk => hkinds (hk ▸ List.contains_iff_mem.mp hmem)
    have hin := hR.inside taken tok hw.1 hk
    exact .take_front hR (hsome tok R hR _ [] ⟨hin, Nat.zero_le 1⟩)
  | false => exact hnone.here R hR taken hw.1

theorem accepted {kinds : List Token.Kind} (hkinds : .tagClose ∉ kinds) :
    (Script.accept kinds).Modest := by
  rw [← bind_done (Script.accept kinds)]
  exact .accept hkinds (fun tok => .done (some tok)) (.done none)

theorem expect {kind : Token.Kind} {expected : Expectation} (hk : kind ≠ .tagClose)
    (he : expected.OfTag) : (Script.expect kind expected).Modest :=
  fun _ hR taken _ hw => .expect hR he hw fun tok htok =>
    ⟨hR.inside taken tok hw.1 (htok ▸ hk), Nat.zero_le 1⟩

end Modest
end Script
end ClearSilver
