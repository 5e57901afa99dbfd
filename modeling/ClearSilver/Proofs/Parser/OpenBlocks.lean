/-
# Bodies that are left open

A body that stops at the end of the input with a block open is inside of
blocks that its tokens opened, and that block is the innermost one
(`Script.siblings_tracks`). So is every body read from the same tokens, with
positions and a budget of its own: with the close tag of the innermost block
behind the tokens it is inside of the others, and with all their close tags it
is done. Each script of the grammar of commands says so of its own tokens, and
what it says is put together from what its parts say.

Key definitions: `Script.BodyOpen`, `Script.CommandOpen`, `Script.HeadTaken`,
`Script.BranchesOpen`, `Script.ElseOpen`, `Script.ConditionalOpen`.
Key theorems: `Script.Tracks.enclose`, `Script.CommandOpen.block`,
`Script.branches_tracks`, `Script.tag?_tracks`, `Script.siblings_tracks`.
-/
import ClearSilver.Proofs.Block.Stack
import ClearSilver.Proofs.Parser.CommandKeeps
import ClearSilver.Proofs.Parser.CommandTakes
import ClearSilver.Proofs.Parser.LeavesOpen
import ClearSilver.Proofs.Script.Tracks

namespace ClearSilver

namespace Script

open Form

variable {α β γ : Type} {place : Nat → Position} {budget : Nat} {us vs : List Token}
  {bs : List OpenBlock} {openTag keyword tok : Token} {k : Keyword}

/-! ### What the tokens of each part say -/

/-- Does a body leave these blocks open behind the tokens? -/
structure BodyOpen (us : List Token) (bs : List OpenBlock) : Prop where
  opens : Opens us bs
  leaves : ∀ place budget, us.length < budget →
    (siblings place budget).LeavesOpen BodyEnds us bs

/-- Does a command leave these blocks open behind the tokens? -/
structure CommandOpen (us : List Token) (bs : List OpenBlock) : Prop where
  opens : Opens us bs
  begins : TagAhead (endsBody · = false) us
  leaves : ∀ place budget, us.length ≤ budget → (command place budget).LeavesOpen anyRest us bs

/-- Is this the whole head of a tag, with no block open? -/
structure HeadTaken (head : Nat → Token → Script γ) (us : List Token) (bs : List OpenBlock) :
    Prop where
  none : bs = []
  opens : Opens us []
  takes : ∀ budget keyword, us.length ≤ budget → ∃ x, (head budget keyword).Takes us x anyRest

/-- Do the branches of an `if` tag leave these blocks open behind the tokens? -/
structure BranchesOpen (us : List Token) (bs : List OpenBlock) : Prop where
  opens : Opens us bs
  leaves : ∀ place budget n openTag keyword, us.length < budget → us.length < n →
    (branches place (commands place budget) (expression budget) n openTag keyword).LeavesOpen
      (EndsAt fun k => k = .symbol .slash ∨ k = .keyword .elseTag) us bs

/-- Does the `else` tag of an `if` tag, if there is one, leave these blocks open
behind the tokens? -/
structure ElseOpen (us : List Token) (bs : List OpenBlock) : Prop where
  opens : Opens us bs
  begins : (us = [] ∧ bs = []) ∨ ∀ rest, TagAhead (· = .keyword .elseTag) (us ++ rest)
  leaves : ∀ place budget, us.length < budget →
    (elseBranch (commands place budget)).LeavesOpen (EndsAt (· = .symbol .slash)) us bs

/-- Does what stands in an `if` tag before its close tag leave these blocks open
behind the tokens? -/
structure ConditionalOpen (us : List Token) (bs : List OpenBlock) : Prop where
  opens : Opens us bs
  leaves : ∀ place budget openTag keyword, us.length < budget →
    (conditional place (commands place budget) budget openTag keyword).LeavesOpen
      (EndsAt (· = .symbol .slash)) us bs

/-! ### Bodies -/

namespace BodyOpen

/-- A body in its marks. -/
theorem commands (h : BodyOpen us bs) (hlen : us.length < budget) :
    (Script.commands place budget).LeavesOpen BodyEnds us bs := by
  have hsame : (Script.commands place budget).Passes [] (siblings place budget) anyRest :=
    fun rest _ => feed_marked _ _
  exact .behind hsame (h.leaves place budget hlen) fun _ => trivial

theorem nil : BodyOpen [] [] where
  opens := .nil
  leaves place budget hlen := by
    obtain ⟨b, rfl⟩ : ∃ b, budget = b + 1 := ⟨budget - 1, by simp at hlen; omega⟩
    exact ⟨[], siblings_end place b⟩

/-- Literal text and what comes behind it. -/
theorem data (htok : tok.kind = .data) (h : BodyOpen us bs) : BodyOpen (tok :: us) bs where
  opens := .cons (by simp [htok]) h.opens
  leaves place budget hlen := by
    rw [List.length_cons] at hlen
    obtain ⟨b, rfl⟩ : ∃ b, budget = b + 1 := ⟨budget - 1, by omega⟩
    have hrest := (h.leaves place b (by omega)).map (Command.data tok.text :: ·)
    exact .behind (siblings_passes_data place b htok) hrest fun _ => trivial

/-- A command that is done and what comes behind it. -/
theorem behind (hus : CommandOpen us []) (h : BodyOpen vs bs) : BodyOpen (us ++ vs) bs where
  opens := by
    have hall := hus.opens.append h.opens
    rwa [List.append_nil] at hall
  leaves place budget hlen := by
    obtain ⟨b, rfl⟩ : ∃ b, budget = b + 1 := ⟨budget - 1, by omega⟩
    obtain ⟨o, kw, ws, hws, -⟩ := hus.begins
    have hpos : 0 < us.length := by simp [hws]
    rw [List.length_append] at hlen
    obtain ⟨c, hc⟩ := hus.leaves place b (by omega)
    have hrest := (h.leaves place b (by omega)).map (c :: ·)
    refine .behind (siblings_passes_tag place b) (.after hc hrest fun _ => trivial) fun rest => ?_
    exact (hus.begins.append vs).append rest

/-- A command that is left open. -/
theorem last (h : CommandOpen us bs) : BodyOpen us bs where
  opens := h.opens
  leaves place budget hlen := by
    obtain ⟨o, kw, ws, hws, -⟩ := h.begins
    have hpos : 0 < us.length := by simp [hws]
    obtain ⟨b, rfl⟩ : ∃ b, budget = b + 2 := ⟨budget - 2, by omega⟩
    have hrest : ∀ c : Command, ∃ cs, ((siblings place (b + 1)).bind fun cs =>
        done (c :: cs)).Takes [] cs BodyEnds := fun c =>
      ⟨[c], (siblings_end place b).map (c :: ·)⟩
    have hcommand := (h.leaves place (b + 1) (by omega)).bind hrest fun _ _ => trivial
    exact .behind (siblings_passes_tag place (b + 1)) hcommand fun rest => h.begins.append rest

/-- The close tag of the innermost block leaves the others open. -/
theorem close {b : OpenBlock} {ts : List Token} (h : BodyOpen us (b :: bs))
    (hk : b.keyword.kind = .keyword k) (hts : (phrase (.close k)).Matches ts) :
    BodyOpen (us ++ ts) bs where
  opens := by
    obtain ⟨o, slash, kw, last, rfl, ho, hslash, hkw, hlast⟩ := matches_close hts
    exact h.opens.close ho hslash (by simp [hkw]) (by simp [hlast])
  leaves place budget hlen := by
    rw [List.length_append] at hlen
    obtain ⟨-, k', hk', hclose⟩ := h.leaves place budget (by omega)
    obtain rfl : k = k' := by
      rw [hk] at hk'
      exact Token.Kind.keyword.inj hk'
    exact hclose ts hts

end BodyOpen

/-! ### Scripts in a row -/

theorem closeBlock_tracks (openTag keyword : Token) :
    (closeBlock openTag keyword).Tracks
      fun us bs => bs = [] ∨ (us = [] ∧ bs = [⟨openTag, keyword⟩]) := by
  have htag : ((expect .tagOpen .tagOpen).bind fun _ =>
      (expect (.symbol .slash) (.closeOf keyword.text)).bind fun _ =>
      (expect keyword.kind (.closeOf keyword.text)).bind fun _ => endTag).Keeps
      (fun _ _ => True) False := by
    refine .bind (.expect _ _) fun _ _ _ => .bind (.expect _ _) fun _ _ _ => ?_
    exact .bind (.expect _ _) fun _ _ _ => (Keeps.expect _ _).map fun _ _ _ => trivial
  intro ts
  cases ts with
  | nil => exact .waiting
  | cons last rest =>
    by_cases hlast : last.kind = .eof
    · rw [closeBlock_eof openTag keyword hlast]
      exact .unclosed (List.nil_append _).symm hlast rfl (.inr ⟨rfl, rfl⟩)
    · refine Eq.mpr (congrArg (Fed.Tracks _ _) (feed_ask [.eof] _ last rest)) ?_
      rw [decide_eq_false (by simpa using hlast)]
      refine Tracks.of_open (.of_keeps htag) (fun ts a rest h => ?_) (last :: rest)
      obtain ⟨us, hus, -⟩ := htag.used h
      exact ⟨us, hus, .inl rfl⟩

/-- The block around a script is open unless its close tag is read. -/
theorem Tracks.enclose {P R : List Token → List OpenBlock → Prop} {s : Script α} {e : α → β}
    (hs : s.Tracks P) (hopen : ∀ us bs, P us bs → R us (bs ++ [⟨openTag, keyword⟩]))
    (hnone : ∀ us, R us []) :
    (s.bind fun a => (closeBlock openTag keyword).bind fun _ => Script.done (e a)).Tracks R := by
  refine .bind hs (fun us bs b hP hb => ?_) fun a us hP => ?_
  · refine ⟨bs ++ [⟨openTag, keyword⟩], ?_, hopen us bs hP⟩
    rw [List.head?_append, hb]
    rfl
  · refine (closeBlock_tracks openTag keyword).map fun vs bs hclose => ?_
    rcases hclose with rfl | ⟨rfl, rfl⟩
    · exact hnone _
    · rw [List.append_nil]
      exact hopen us [] hP

/-! ### Heads of tags -/

/-- A head that reads a form is taken with any budget for its tokens. -/
theorem head_tracks {head : Nat → Token → Script γ} {f : Form} {F K : List Token → γ → Prop}
    (hr : (head budget keyword).Reads f F) (hk : (head budget keyword).Keeps K False)
    (hopens : ∀ us x, K us x → Opens us [])
    (htakes : ∀ us, f.Matches us → ∀ budget, us.length ≤ budget → ∀ keyword,
      ∃ x, (head budget keyword).Takes us x anyRest) :
    (head budget keyword).Tracks (HeadTaken head) :=
  .of_reads hr hk fun us x hf hK =>
    ⟨rfl, hopens us x hK, fun budget keyword hle => htakes us hf budget hle keyword⟩

theorem headedTag_tracks (budget : Nat) (keyword : Token) :
    (headedTag budget keyword).Tracks (HeadTaken headedTag) :=
  head_tracks (headedTag_reads budget keyword) (headedTag_keeps (fun _ => ⟨0, 0, 0⟩) budget keyword)
    (fun _ _ h => h.blocks) fun _ h _ => headedTag_of_matches h

theorem bindingTag_tracks (budget : Nat) (keyword : Token) :
    (bindingTag budget keyword).Tracks (HeadTaken bindingTag) :=
  head_tracks (bindingTag_reads budget keyword)
    (bindingTag_keeps (fun _ => ⟨0, 0, 0⟩) budget keyword)
    (fun _ _ h => h.blocks) fun _ h _ => bindingTag_of_matches h

theorem loopHead_tracks (budget : Nat) (keyword : Token) :
    (loopHead budget keyword).Tracks (HeadTaken loopHead) :=
  head_tracks (loopHead_reads budget keyword) (loopHead_keeps (fun _ => ⟨0, 0, 0⟩) budget keyword)
    (fun _ _ h => h.blocks) fun _ h _ => loopHead_of_matches h

theorem defineHead_tracks (budget : Nat) (keyword : Token) :
    (defineHead budget keyword).Tracks (HeadTaken defineHead) :=
  head_tracks (defineHead_reads budget keyword)
    (defineHead_keeps (fun _ => ⟨0, 0, 0⟩) budget keyword)
    (fun _ _ h => h.blocks) fun _ h _ => defineHead_of_matches h

theorem endTag_tracks : endTag.Tracks (HeadTaken fun _ _ => endTag) := by
  refine .of_reads endTag_reads (endTag_keeps fun _ => ⟨0, 0, 0⟩) fun us x hf hK => ?_
  obtain ⟨last, hlast, rfl⟩ := matches_token.mp hf
  exact ⟨rfl, hK.blocks, fun _ _ _ => ⟨(), endTag_takes hlast⟩⟩

/-- A head in front of what can be left open. -/
theorem Tracks.behind_head {R : List Token → List OpenBlock → Prop}
    {head : Nat → Token → Script γ} {s : Script γ} {k : γ → Script β}
    (hs : s.Tracks (HeadTaken head))
    (hk : ∀ x us, HeadTaken head us [] → (k x).Tracks fun vs bs => R (us ++ vs) bs) :
    (s.bind k).Tracks R := by
  refine .bind hs (fun us bs b h hb => ?_) hk
  rw [h.none] at hb
  cases hb

/-! ### Blocks -/

section

variable {head : Nat → Token → Script γ} {e : Position → γ → Command → Command}

/-- A whole command leaves no block open. -/
theorem CommandOpen.of_matches (h : (phrase .command).Matches us) (hopens : Opens us []) :
    CommandOpen us [] := by
  obtain ⟨o, ts, ho, rfl, hts⟩ := matches_token_both.mp (matches_phrase.mp h)
  have hcompletes : ∀ place budget, ts.length ≤ budget →
      CompletesTag place (commands place budget) budget ts := fun place budget hlen =>
    keyworded_of_matches ((siblings_takes place budget).marked) hts hlen
  refine ⟨hopens, ?_, fun place budget hlen => ?_⟩
  · obtain ⟨kw, us, rfl, hends, -⟩ := hcompletes (fun _ => ⟨0, 0, 0⟩) ts.length (Nat.le_refl _)
    exact ⟨o, kw, us, rfl, ho, hends⟩
  · obtain ⟨kw, us, rfl, -, hc⟩ := hcompletes place budget (Nat.le_of_succ_le hlen)
    exact hc o ho

/-- A tag is left open by what stands behind its keyword. -/
theorem CommandOpen.tag (ho : openTag.kind = .tagOpen) (hk : keyword.kind = .keyword k)
    (hopens : k.opensBlock = true) (h : Opens us bs)
    (hleaves : ∀ place budget, us.length < budget → ∃ rest,
      tag? place (commands place budget) budget openTag keyword = some rest ∧
        rest.LeavesOpen anyRest us (bs ++ [⟨openTag, keyword⟩])) :
    CommandOpen (openTag :: keyword :: us) (bs ++ [⟨openTag, keyword⟩]) where
  opens := .enter ho hk hopens h
  begins := by
    refine ⟨openTag, keyword, us, rfl, ho, ?_⟩
    rw [hk]
    cases k <;> first | rfl | cases hopens
  leaves place budget hlen := by
    obtain ⟨rest, ht, hrest⟩ := hleaves place budget (Nat.le_of_succ_le hlen)
    exact .behind (commandOver_passes ho ht) hrest fun _ => trivial

/-- **A block is left open** behind what it encloses. -/
theorem CommandOpen.block (ho : openTag.kind = .tagOpen) (hk : keyword.kind = .keyword k)
    (hopens : k.opensBlock = true)
    (ht : ∀ place budget, tag? place (commands place budget) budget openTag keyword =
      some ((head budget keyword).bind fun x =>
        (enclosed (commands place budget) openTag keyword).bind fun c =>
          done (e (place openTag.offset) x c)))
    (hus : HeadTaken head us []) (hvs : BodyOpen vs bs) :
    CommandOpen (openTag :: keyword :: (us ++ vs)) (bs ++ [⟨openTag, keyword⟩]) := by
  have hopened : Opens (us ++ vs) bs := by
    have hall := hus.opens.append hvs.opens
    rwa [List.append_nil] at hall
  refine .tag ho hk hopens hopened fun place budget hlen => ⟨_, ht place budget, ?_⟩
  rw [List.length_append] at hlen
  obtain ⟨x, hx⟩ := hus.takes budget keyword (by omega)
  have henclosed : (enclosed (commands place budget) openTag keyword).LeavesOpen anyRest vs
      (bs ++ [⟨openTag, keyword⟩]) :=
    .enclose hk (fun _ => EndsAt.bodyEnds) Command.ofList (hvs.commands (by omega))
  exact .after hx (henclosed.map (e (place openTag.offset) x)) fun _ => trivial

end

/-! ### Branches -/

namespace BranchesOpen

/-- The last branch, which is left open or not. -/
theorem last (hus : HeadTaken headedTag us []) (h : BodyOpen vs bs) :
    BranchesOpen (us ++ vs) bs where
  opens := by
    have hall := hus.opens.append h.opens
    rwa [List.append_nil] at hall
  leaves place budget n openTag keyword hlen hn := by
    obtain ⟨n, rfl⟩ : ∃ m, n = m + 1 := ⟨n - 1, by omega⟩
    rw [List.length_append] at hlen
    obtain ⟨x, hx⟩ := hus.takes budget keyword (by omega)
    have hbody : (commands place budget).LeavesOpen BodyEnds vs bs := h.commands (by omega)
    rw [branches_succ]
    refine .after hx ?_ fun _ => trivial
    refine hbody.bind (fun cs => ⟨_, moreBranches_none place _ budget n _⟩) fun rest hrest => ?_
    exact EndsAt.weaken hrest fun k hk => by rcases hk with rfl | rfl <;> rfl

/-- A branch that is done and those behind it. -/
theorem more {t t' : Token} {ws : List Token} (hus : HeadTaken headedTag us [])
    (hvs : BodyOpen vs []) (ht : t.kind = .tagOpen) (ht' : t'.kind = .keyword .elseIf)
    (h : BranchesOpen ws bs) : BranchesOpen (us ++ (vs ++ t :: t' :: ws)) bs where
  opens := by
    have hall := hus.opens.append (hvs.opens.append (h.opens.pass ht ht' rfl))
    rwa [List.append_nil, List.append_nil] at hall
  leaves place budget n openTag keyword hlen hn := by
    obtain ⟨n, rfl⟩ : ∃ m, n = m + 1 := ⟨n - 1, by omega⟩
    simp only [List.length_append, List.length_cons] at hlen hn
    obtain ⟨x, hx⟩ := hus.takes budget keyword (by omega)
    obtain ⟨cs, hcs⟩ : (commands place budget).LeavesOpen BodyEnds vs [] :=
      hvs.commands (by omega)
    have hmore := (h.leaves place budget n t t' (by omega) (by omega)).map
      ((⟨place openTag.offset, x, .ofList cs⟩ : Branch) :: ·)
    rw [branches_succ]
    refine .after hx (.after hcs (.behind (moreBranches_tag ht ht' n _) hmore
      fun _ => trivial) fun rest => ?_) fun _ => trivial
    exact .inr ⟨t, t', ws ++ rest, rfl, ht, by rw [ht']; rfl⟩

end BranchesOpen

section

variable (hb : (commands place budget).Tracks BodyOpen)
include hb

theorem branches_tracks : ∀ (n : Nat) (openTag keyword : Token),
    (branches place (commands place budget) (expression budget) n openTag keyword).Tracks
      BranchesOpen
  | 0, _, _ => fun _ => .exhausted
  | n + 1, openTag, keyword => by
    rw [branches_succ]
    refine .behind_head (headedTag_tracks budget keyword) fun e us hus => ?_
    refine .bind hb (fun vs bs b hvs hin => ⟨bs, hin, .last hus hvs⟩) fun cs vs hvs => ?_
    refine .tagAhead rfl (fun t t' ht ht' => ?_) (.done ?_)
    · exact (branches_tracks n t t').map fun ws bs hws => .more hus hvs ht ht' hws
    · rw [List.append_nil]
      exact .last hus hvs

theorem elseBranch_tracks : (elseBranch (commands place budget)).Tracks ElseOpen := by
  unfold elseBranch
  refine .tagAhead rfl (fun t t' ht ht' => ?_) (.done ?_)
  · refine .behind_head endTag_tracks fun _ us hus => hb.map fun vs bs hvs => ?_
    have hopened := hus.opens.append hvs.opens
    rw [List.append_nil] at hopened
    refine ⟨hopened.pass ht ht' rfl, .inr fun rest => ⟨t, t', us ++ vs ++ rest, rfl, ht, ht'⟩, ?_⟩
    intro place budget hlen
    simp only [List.length_cons, List.length_append] at hlen
    obtain ⟨x, hx⟩ := hus.takes budget t' (by omega)
    have hbody : ((commands place budget).bind fun cs => done (Command.ofList cs)).LeavesOpen
        (EndsAt (· = .symbol .slash)) vs bs :=
      (hvs.commands (by omega)).bind (fun cs => ⟨_, .refl _ _⟩) fun _ => EndsAt.bodyEnds
    have hrest := LeavesOpen.after (k := fun _ => (commands place budget).bind fun cs =>
      done (Command.ofList cs)) hx hbody fun _ => trivial
    exact .behind (.tag rfl ht ht' (.refl _ anyRest)) hrest fun _ => trivial
  · exact ⟨.nil, .inl ⟨rfl, rfl⟩, fun place budget _ => ⟨_, elseBranch_none⟩⟩

end

namespace ConditionalOpen

/-- The branches with no `else` tag behind them. -/
theorem of_branches (h : BranchesOpen us bs) : ConditionalOpen us bs where
  opens := h.opens
  leaves place budget openTag keyword hlen := by
    refine (h.leaves place budget budget openTag keyword hlen hlen).bind (fun found => ?_)
      fun rest hrest => ?_
    · exact ⟨_, elseBranch_none.map fun c => Branch.chain found c⟩
    · exact EndsAt.weaken hrest fun _ => .inl

/-- The branches and what may be an `else` tag behind them. -/
theorem append (hus : BranchesOpen us []) (hvs : ElseOpen vs bs) :
    ConditionalOpen (us ++ vs) bs := by
  rcases hvs.begins with ⟨rfl, rfl⟩ | hbegins
  · rw [List.append_nil]
    exact of_branches hus
  have hopened := hus.opens.append hvs.opens
  rw [List.append_nil] at hopened
  refine ⟨hopened, fun place budget openTag keyword hlen => ?_⟩
  rw [List.length_append] at hlen
  obtain ⟨found, hfound⟩ :=
    hus.leaves place budget budget openTag keyword (by omega) (by omega)
  have hrest := (hvs.leaves place budget (by omega)).map (Branch.chain found)
  exact .after hfound hrest fun rest => EndsAt.weaken (.inr (hbegins rest)) fun _ => .inr

end ConditionalOpen

/-! ### Commands -/

section

variable (hb : (commands place budget).Tracks BodyOpen)
include hb

theorem conditional_tracks (openTag keyword : Token) :
    (conditional place (commands place budget) budget openTag keyword).Tracks ConditionalOpen := by
  refine .bind (branches_tracks hb budget openTag keyword)
    (fun us bs b h hin => ⟨bs, hin, .of_branches h⟩) fun found us hus => ?_
  exact (elseBranch_tracks hb).map fun vs bs hvs => ConditionalOpen.append hus hvs

variable (ho : openTag.kind = .tagOpen)
include ho

/-- A block is open behind its head unless its close tag is read. -/
theorem block_tracks {head : Nat → Token → Script γ} (e : Position → γ → Command → Command)
    (hhead : (head budget keyword).Tracks (HeadTaken head)) (hk : keyword.kind = .keyword k)
    (hopens : k.opensBlock = true)
    (ht : ∀ place budget, tag? place (commands place budget) budget openTag keyword =
      some ((head budget keyword).bind fun x =>
        (enclosed (commands place budget) openTag keyword).bind fun c =>
          done (e (place openTag.offset) x c))) {rest : Script Command}
    (hrest : tag? place (commands place budget) budget openTag keyword = some rest) :
    rest.Tracks fun us bs => bs ≠ [] → CommandOpen (openTag :: keyword :: us) bs := by
  obtain rfl := Option.some.inj (hrest.symm.trans (ht place budget))
  refine .behind_head hhead fun x us hus => Tracks.map (Tracks.enclose hb (fun vs bs hvs _ => ?_)
    fun vs h => absurd rfl h) fun vs bs h => h
  exact .block ho hk hopens ht hus hvs

/-- **Behind its keyword a tag leaves open** what its tokens opened. -/
theorem tag?_tracks (hk : keyword.kind = .keyword k) (hopens : k.opensBlock = true)
    {rest : Script Command}
    (hrest : tag? place (commands place budget) budget openTag keyword = some rest) :
    rest.Tracks fun us bs => bs ≠ [] → CommandOpen (openTag :: keyword :: us) bs := by
  cases k <;> try cases hopens
  case escape =>
    exact block_tracks hb ho (.wrap .escape) (headedTag_tracks _ _) hk rfl
      (fun _ _ => tag?_wrap .escape hk) hrest
  case autoescape =>
    exact block_tracks hb ho (.wrap .autoescape) (headedTag_tracks _ _) hk rfl
      (fun _ _ => tag?_wrap .autoescape hk) hrest
  case alt =>
    exact block_tracks hb ho (.wrap .alt) (headedTag_tracks _ _) hk rfl
      (fun _ _ => tag?_wrap .alt hk) hrest
  case withTag =>
    exact block_tracks hb ho (fun pos p => .bind .scope pos p.1 p.2) (bindingTag_tracks _ _) hk rfl
      (fun _ _ => tag?_bind .scope hk) hrest
  case each =>
    exact block_tracks hb ho (fun pos p => .bind .each pos p.1 p.2) (bindingTag_tracks _ _) hk rfl
      (fun _ _ => tag?_bind .each hk) hrest
  case loop =>
    exact block_tracks hb ho (fun pos p => .loop pos p.1 p.2) (loopHead_tracks _ _) hk rfl
      (fun _ _ => tag?_loop hk) hrest
  case defTag =>
    exact block_tracks hb ho (fun pos p => .define pos p.1 p.2) (defineHead_tracks _ _) hk rfl
      (fun _ _ => tag?_define hk) hrest
  case inline =>
    exact block_tracks hb ho (fun pos _ => .inline pos) endTag_tracks hk rfl
      (fun _ _ => tag?_inline hk) hrest
  case ifTag =>
    obtain rfl := Option.some.inj (hrest.symm.trans (tag?_if hk))
    refine .enclose (conditional_tracks hb openTag keyword) (fun us bs h _ => ?_)
      fun us h => absurd rfl h
    refine .tag ho hk rfl h.opens fun place budget hlen => ⟨_, tag?_if hk, ?_⟩
    exact (h.leaves place budget openTag keyword hlen).enclose hk (fun _ h => h) fun c => c

omit ho

theorem command_tracks : (command place budget).Tracks CommandOpen := by
  refine .of_open ?_ fun ts c rest h => ?_
  · unfold command commandOver
    refine .expect fun openTag ho => .any_token fun keyword => ?_
    cases ht : tag? place (commands place budget) budget openTag keyword with
    | none => exact fun _ => .unexpected _ _
    | some rest =>
      have hrest : rest.Tracks fun us bs =>
          bs ≠ [] → CommandOpen (openTag :: keyword :: us) bs := by
        by_cases hopens : ∃ k, keyword.kind = .keyword k ∧ k.opensBlock = true
        · obtain ⟨k, hk, hopens⟩ := hopens
          exact tag?_tracks hb ho hk hopens ht
        · exact .of_keeps ((tag?_keeps (commands_keeps place budget) ho ht).mono hopens)
      exact fun ts => hrest ts
  · obtain ⟨us, hus, hf, hK⟩ := used_of_gave
      (commandOver_reads place budget (commands_reads place budget))
      (commandOver_keeps (commands_keeps place budget) budget) h
    exact ⟨us, hus, .of_matches hf hK.blocks⟩

end

/-! ### Bodies that stop inside of blocks -/

/-- **A body leaves open what its tokens opened.** -/
theorem siblings_tracks (place : Nat → Position) : ∀ budget : Nat,
    (siblings place budget).Tracks BodyOpen
  | 0 => fun _ => .exhausted
  | budget + 1 => by
    have ih := siblings_tracks place budget
    have hbody : (commands place budget).Tracks BodyOpen := by
      intro ts
      rw [commands, feed_marked]
      exact ih ts
    intro ts
    obtain _ | ⟨t, ts⟩ := ts
    · rw [siblings_succ]
      exact .waiting
    rw [feed_siblings_cons]
    split
    next hdata =>
      have hrest := ih.map (e := fun cs => Command.data t.text :: cs) fun us bs h =>
        h.data hdata
      exact Fed.Tracks.behind [t] (hrest ts)
    split
    · cases ts with
      | nil => exact .waiting
      | cons t' ts =>
        simp only
        split
        · exact .gave rfl .nil
        · refine Tracks.bind (command_tracks hbody) (fun us bs b h hin => ⟨bs, hin, .last h⟩)
            (fun c us hus => ?_) _
          exact ih.map fun vs bs hvs => hvs.behind hus
    · exact .gave rfl .nil

end Script
end ClearSilver
