/-
# Tokens that match a form

A form matches some tokens if it derives their kinds (`Form.Matches`), and
they lead to it if more kinds can come behind them that complete them
(`Form.Leads`). The kinds that complete are plain: none of them is literal
text, the text of a comment, a `!` or a `!=`, so they can be written behind any
text that was read. Every form of the grammar can be completed from nothing
(`Form.leads_nil`).

Key definitions: `Form.Matches`, `Token.Kind.isPlain`, `Form.Leads`,
`Form.Within`, `Form.isGrounded`.
Key theorems: `Form.matches_both`, `Form.matches_many`, `Form.leads_nil`.
-/
import ClearSilver.Grammar

namespace ClearSilver

namespace Form

/-- Do the kinds of these tokens make a run that the form stands for? -/
def Matches (f : Form) (ts : List Token) : Prop := f.Derives (ts.map (·.kind))

/-! ### What each form matches -/

theorem matches_empty {ts : List Token} : empty.Matches ts ↔ ts = [] := by
  constructor
  · intro h
    generalize hk : ts.map (·.kind) = ks at h
    unfold Matches at h
    rw [hk] at h
    cases h
    exact List.map_eq_nil_iff.mp hk
  · rintro rfl
    exact .empty

theorem matches_token {k : Token.Kind} {ts : List Token} :
    (token k).Matches ts ↔ ∃ tok, tok.kind = k ∧ ts = [tok] := by
  constructor
  · intro h
    generalize hk : ts.map (·.kind) = ks at h
    unfold Matches at h
    rw [hk] at h
    cases h
    obtain ⟨tok, rest, rfl, htok, hrest⟩ := List.map_eq_cons_iff.mp hk
    exact ⟨tok, htok, by rw [List.map_eq_nil_iff.mp hrest]⟩
  · rintro ⟨tok, rfl, rfl⟩
    exact .token _

theorem matches_phrase {p : Phrase} {ts : List Token} :
    (phrase p).Matches ts ↔ p.form.Matches ts :=
  ⟨fun h => by cases h; assumption, .phrase⟩

theorem matches_both {f g : Form} {ts : List Token} :
    (both f g).Matches ts ↔ ∃ us vs, ts = us ++ vs ∧ f.Matches us ∧ g.Matches vs := by
  constructor
  · intro h
    generalize hk : ts.map (·.kind) = ks at h
    unfold Matches at h
    rw [hk] at h
    cases h with
    | both hf hg =>
      obtain ⟨us, vs, rfl, rfl, rfl⟩ := List.map_eq_append_iff.mp hk
      exact ⟨us, vs, rfl, hf, hg⟩
  · rintro ⟨us, vs, rfl, hf, hg⟩
    unfold Matches
    rw [List.map_append]
    exact .both hf hg

/-- A form behind a token. -/
theorem matches_token_both {k : Token.Kind} {f : Form} {ts : List Token} :
    (both (token k) f).Matches ts ↔ ∃ tok us, tok.kind = k ∧ ts = tok :: us ∧ f.Matches us := by
  rw [matches_both]
  constructor
  · rintro ⟨us, vs, rfl, hk, hf⟩
    obtain ⟨tok, htok, rfl⟩ := matches_token.mp hk
    exact ⟨tok, vs, htok, rfl, hf⟩
  · rintro ⟨tok, us, htok, rfl, hf⟩
    exact ⟨[tok], us, rfl, matches_token.mpr ⟨tok, htok, rfl⟩, hf⟩

theorem matches_either {f g : Form} {ts : List Token} :
    (either f g).Matches ts ↔ f.Matches ts ∨ g.Matches ts := by
  constructor
  · intro h
    cases h with
    | left h => exact .inl h
    | right h => exact .inr h
  · rintro (h | h)
    · exact .left h
    · exact .right h

/-- A repetition matches what falls into parts that match. -/
theorem matches_many {f : Form} {ts : List Token} :
    (many f).Matches ts ↔
      ∃ parts : List (List Token), ts = parts.flatten ∧ ∀ us ∈ parts, f.Matches us := by
  constructor
  · intro h
    generalize hk : ts.map (·.kind) = ks at h
    unfold Matches at h
    rw [hk] at h
    generalize hg : many f = g at h
    induction h generalizing ts with
    | none => exact ⟨[], List.map_eq_nil_iff.mp hk, by simp⟩
    | more hf _ _ ih =>
      cases hg
      obtain ⟨us, vs, rfl, rfl, rfl⟩ := List.map_eq_append_iff.mp hk
      obtain ⟨parts, rfl, hparts⟩ := ih rfl rfl
      refine ⟨us :: parts, rfl, fun ws hws => ?_⟩
      rcases List.mem_cons.mp hws with rfl | hws
      · exact hf
      · exact hparts ws hws
    | _ => cases hg
  · rintro ⟨parts, rfl, hparts⟩
    induction parts with
    | nil => exact .none
    | cons us parts ih =>
      unfold Matches
      rw [List.flatten_cons, List.map_append]
      exact .more (hparts us List.mem_cons_self)
        (ih fun vs hvs => hparts vs (List.mem_cons_of_mem _ hvs))

/-! ### Forms within forms -/

/-- Does the second form stand for all that the first one stands for? -/
def Within (f g : Form) : Prop := ∀ ks, f.Derives ks → g.Derives ks

theorem Within.refl (f : Form) : f.Within f := fun _ h => h

theorem Within.trans {f g h : Form} (hfg : f.Within g) (hgh : g.Within h) : f.Within h :=
  fun ks hk => hgh ks (hfg ks hk)

theorem within_phrase (p : Phrase) : p.form.Within (phrase p) := fun _ h => .phrase h

theorem within_left (f g : Form) : f.Within (either f g) := fun _ h => .left h

theorem within_right (f g : Form) : g.Within (either f g) := fun _ h => .right h

theorem Within.both {f f' g g' : Form} (hf : f.Within f') (hg : g.Within g') :
    (Form.both f g).Within (Form.both f' g') := by
  intro ks h
  cases h with
  | both h h' => exact .both (hf _ h) (hg _ h')

/-- The parts of a sequence can be taken together from either end. -/
theorem within_assoc (f g h : Form) :
    (Form.both (Form.both f g) h).Within (.both f (.both g h)) := by
  intro ks hk
  cases hk with
  | both hfg hh =>
    cases hfg with
    | both hf hg =>
      rw [List.append_assoc]
      exact .both hf (.both hg hh)

theorem assoc_within (f g h : Form) : (Form.both f (.both g h)).Within (.both (.both f g) h) := by
  intro ks hk
  cases hk with
  | both hf hgh =>
    cases hgh with
    | both hg hh =>
      rw [← List.append_assoc]
      exact .both (.both hf hg) hh

/-- A sequence can be cut anywhere. -/
theorem within_sequence_append : ∀ fs gs : List Form,
    (sequence (fs ++ gs)).Within (.both (sequence fs) (sequence gs))
  | [], gs => fun _ h => .both .empty h
  | [f], [] => fun ks h => by
    rw [← List.append_nil ks]
    exact .both h .empty
  | [_], _ :: _ => .refl _
  | f :: f' :: fs, gs =>
    (Within.both (.refl f) (within_sequence_append (f' :: fs) gs)).trans (assoc_within _ _ _)

/-- Sequences in a row make a sequence. -/
theorem sequence_within : ∀ fs gs : List Form, fs ≠ [] → gs ≠ [] →
    (Form.both (sequence fs) (sequence gs)).Within (sequence (fs ++ gs))
  | [_], _ :: _, _, _ => .refl _
  | f :: f' :: fs, gs, _, hgs => (within_assoc _ _ _).trans
    (Within.both (.refl f) (sequence_within (f' :: fs) gs (List.cons_ne_nil _ _) hgs))

theorem within_many_none (f : Form) : empty.Within (many f) := by
  intro ks hk
  cases hk
  exact .none

theorem within_many_more (f : Form) : (Form.both f (many f)).Within (many f) := by
  intro ks hk
  cases hk with
  | both hf hs => exact .more hf hs

/-- Repetitions in a row make a repetition. -/
theorem within_many_append (f : Form) : (Form.both (many f) (many f)).Within (many f) := by
  intro ks hk
  cases hk with
  | @both _ _ us vs hus hvs =>
    generalize hg : many f = g at hus
    induction hus with
    | none =>
      cases hg
      exact hvs
    | more hf _ _ ih =>
      cases hg
      rw [List.append_assoc]
      exact .more hf (ih rfl)
    | _ => cases hg

theorem within_behind_optional (f g : Form) : g.Within (.both (optional f) g) :=
  fun _ hk => .both (.right .empty) hk

theorem within_both_empty (f : Form) : (Form.both f .empty).Within f := by
  intro ks hk
  cases hk with
  | both hf he =>
    cases he
    rwa [List.append_nil]

theorem within_anyOf_first : ∀ (others : List Form) (first : Form),
    first.Within (anyOf first others)
  | [], first => .refl first
  | f :: others, first => (within_left first f).trans (within_anyOf_first others _)

/-- Each of the others is one of all. -/
theorem within_anyOf {f : Form} : ∀ {others : List Form} (first : Form), f ∈ others →
    f.Within (anyOf first others)
  | g :: others, first, h => by
    rcases List.mem_cons.mp h with rfl | h
    · exact (within_right first f).trans (within_anyOf_first others _)
    · have hothers : f.Within (anyOf (either first g) others) := within_anyOf (either first g) h
      exact hothers

theorem matches_anyOf {ts : List Token} : ∀ (others : List Form) (first : Form),
    (anyOf first others).Matches ts ↔ first.Matches ts ∨ ∃ f ∈ others, f.Matches ts
  | [], first => by simp [anyOf]
  | g :: others, first => by
    refine (matches_anyOf others (either first g)).trans ?_
    rw [matches_either]
    simp [or_assoc]

/-! ### Completing what was read -/

end Form

/-- Can a token of this kind be written behind any text that was read? -/
def Token.Kind.isPlain : Token.Kind → Bool
  | .data | .comment | .symbol .bang | .symbol .ne => false
  | _ => true

namespace Form

/-- Can more tokens come behind these so that all of them match? -/
def Leads (f : Form) (ts : List Token) : Prop :=
  ∃ more : List Token.Kind, (∀ k ∈ more, k.isPlain = true) ∧ f.Derives (ts.map (·.kind) ++ more)

theorem Matches.leads {f : Form} {ts : List Token} (h : f.Matches ts) : f.Leads ts :=
  ⟨[], by simp, by rw [List.append_nil]; exact h⟩

theorem Leads.within {f g : Form} {ts : List Token} (h : f.Leads ts) (hfg : f.Within g) :
    g.Leads ts := by
  obtain ⟨more, hm, hd⟩ := h
  exact ⟨more, hm, hfg _ hd⟩

theorem Leads.both {f g : Form} {ts : List Token} (hf : f.Leads ts) (hg : g.Leads []) :
    (Form.both f g).Leads ts := by
  obtain ⟨more, hm, hd⟩ := hf
  obtain ⟨more', hm', hd'⟩ := hg
  refine ⟨more ++ more', fun k hk => ?_, ?_⟩
  · exact (List.mem_append.mp hk).elim (hm k) (hm' k)
  · rw [← List.append_assoc]
    exact .both hd hd'

theorem Leads.behind {f g : Form} {us ts : List Token} (hf : f.Matches us) (hg : g.Leads ts) :
    (Form.both f g).Leads (us ++ ts) := by
  obtain ⟨more, hm, hd⟩ := hg
  refine ⟨more, hm, ?_⟩
  rw [List.map_append, List.append_assoc]
  exact .both hf hd

theorem Leads.cons {g : Form} {tok : Token} {ts : List Token} {k : Token.Kind} (htok : tok.kind = k)
    (hg : g.Leads ts) : (Form.both (.token k) g).Leads (tok :: ts) :=
  .behind (matches_token.mpr ⟨tok, htok, rfl⟩) hg

theorem Leads.many {f : Form} {ts : List Token} (hf : f.Leads ts) : (Form.many f).Leads ts := by
  obtain ⟨more, hm, hd⟩ := hf
  refine ⟨more, hm, ?_⟩
  rw [← List.append_nil (_ ++ more)]
  exact .more hd .none

/-! ### Every form can be completed from nothing -/

/-- Can the form be completed from nothing, if the known phrases can? -/
def isGrounded (known : Phrase → Bool) : Form → Bool
  | empty | many _ => true
  | token k => k.isPlain
  | phrase p => known p
  | both f g => f.isGrounded known && g.isGrounded known
  | either f g => f.isGrounded known || g.isGrounded known

theorem leads_of_isGrounded {known : Phrase → Bool}
    (hknown : ∀ p, known p = true → (phrase p).Leads []) :
    ∀ {f : Form}, f.isGrounded known = true → f.Leads []
  | empty, _ => (matches_empty.mpr rfl).leads
  | token k, h => ⟨[k], fun k' hk => by rw [List.mem_singleton.mp hk]; exact h, .token k⟩
  | phrase p, h => hknown p h
  | both f g, h => by
    rw [isGrounded, Bool.and_eq_true] at h
    exact (leads_of_isGrounded hknown h.1).both (leads_of_isGrounded hknown h.2)
  | either f g, h => by
    rw [isGrounded, Bool.or_eq_true] at h
    rcases h with h | h
    · exact (leads_of_isGrounded hknown h).within (within_left f g)
    · exact (leads_of_isGrounded hknown h).within (within_right f g)
  | many f, _ => (matches_many.mpr ⟨[], rfl, by simp⟩).leads

/-- A phrase can be completed from nothing if its form is grounded. -/
theorem leads_of_form (known : Phrase → Bool) (hknown : ∀ p, known p = true → (phrase p).Leads [])
    {p : Phrase} (h : p.form.isGrounded known = true) : (phrase p).Leads [] :=
  (leads_of_isGrounded hknown h).within (within_phrase p)

theorem leads_of_plain_form {p : Phrase} (h : p.form.isGrounded (fun _ => false) = true) :
    (phrase p).Leads [] :=
  leads_of_form (fun _ => false) (fun _ h => Bool.noConfusion h) h

theorem leads_value : (phrase .value).Leads [] := by
  refine leads_of_form (· = .path) (fun p hp => ?_) rfl
  obtain rfl : p = .path := by simpa using hp
  exact leads_of_plain_form rfl

/-- A value is an expression of every level. -/
theorem leads_level (n : Nat) : (phrase (.level n)).Leads [] := by
  cases ho : operators[n]? with
  | none =>
    refine leads_value.within (Within.trans ?_ (within_phrase _))
    rw [Phrase.form, ho]
    exact .refl _
  | some o =>
    have hn : n < operators.length := (List.getElem?_eq_some_iff.mp ho).1
    refine leads_of_form (· = .level (n + 1)) (fun p hp => ?_) ?_
    · obtain rfl : p = .level (n + 1) := by simpa using hp
      exact leads_level (n + 1)
    · simp [Phrase.form, ho, isGrounded]
termination_by operators.length - n

theorem leads_phrase (p : Phrase) : (phrase p).Leads [] := by
  cases p with
  | value => exact leads_value
  | level n => exact leads_level n
  | template =>
    refine leads_of_form (· = .commands) (fun p hp => ?_) rfl
    obtain rfl : p = .commands := by simpa using hp
    exact leads_of_plain_form rfl
  | _ => exact leads_of_plain_form rfl

/-- **Every form can be completed from nothing**, unless it asks for a token
that is not plain. -/
theorem leads_nil {f : Form} (h : f.isGrounded (fun _ => true) = true) : f.Leads [] :=
  leads_of_isGrounded (fun p _ => leads_phrase p) h

theorem leads_optional (f : Form) : (optional f).Leads [] :=
  (leads_nil rfl).within (within_right f empty)

/-! ### How a tag ends -/

/-- Does every run of the form end with the end of a tag? -/
def endsTag : Form → Bool
  | token k => k = .tagClose
  | phrase .command | phrase (.close _) => true
  | both _ g => g.endsTag
  | either f g => f.endsTag && g.endsTag
  | _ => false

theorem endsTag_form {p : Phrase} (h : (phrase p).endsTag = true) : p.form.endsTag = true := by
  cases p with
  | command => rfl
  | close k => rfl
  | _ => cases h

theorem Derives.getLast?_of_endsTag {f : Form} {ks : List Token.Kind} (hd : f.Derives ks) :
    f.endsTag = true → ks.getLast? = some .tagClose := by
  induction hd with
  | empty => simp [endsTag]
  | token k => simp [endsTag]
  | phrase _ ih => exact fun h => ih (endsTag_form h)
  | both _ _ _ ihg =>
    intro h
    rw [List.getLast?_append, ihg h]
    rfl
  | left _ ih => exact fun h => ih (Bool.and_eq_true _ _ ▸ h).1
  | right _ ih => exact fun h => ih (Bool.and_eq_true _ _ ▸ h).2
  | none => simp [endsTag]
  | more => simp [endsTag]

theorem getLast?_of_endsTag {f : Form} {ts : List Token} (hf : f.endsTag = true)
    (h : f.Matches ts) : ts.getLast?.map (·.kind) = some .tagClose := by
  have hlast := Derives.getLast?_of_endsTag h hf
  rwa [List.getLast?_map] at hlast

/-- The last token of a command ends a tag. -/
theorem getLast?_of_command {ts : List Token} (h : (phrase .command).Matches ts) :
    ts.getLast?.map (·.kind) = some .tagClose :=
  getLast?_of_endsTag rfl h

end Form
end ClearSilver
