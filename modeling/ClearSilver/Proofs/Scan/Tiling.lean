/-
# The tokens tile the source

A scanner leaves nothing out. Each token is the text that stands at its
offset, it begins where the one before it ends or behind blanks that the mode
passes over, and what is not covered by a token is such blanks (`Tiles`). One
step of the scanner adds a token to the tiling (`Scanner.next_ok`), so all
tokens tile the source up to its end, or up to the character that stops them
(`drain_tiles`). In a tiling every other character belongs to one token
(`Tiles.countP_covers`), and the offsets of tokens with a text increase
(`Tiles.pairwise_offset`).

Key definitions: `Gap`, `Token.StandsIn`, `Token.covers`, `Tiles`.
Key theorems: `Scanner.next_ok`, `Pulls.tiles`, `Tiles.countP_covers`,
`Tiles.pairwise_offset`, `drain_tiles`.
-/
import ClearSilver.Proofs.Scan.Stream

namespace ClearSilver

/-- What stands between a place and the token or fault after it: blanks, and
nothing at all in a mode that passes over none. -/
structure Gap (source : Text) (mode : Mode) (pos offset : Nat) : Prop where
  le : pos ≤ offset
  inside : offset ≤ source.length
  blanks : ∀ i c, pos ≤ i → i < offset → source[i]? = some c → isBlank c = true
  empty : mode ≠ .arguments → offset = pos

/-- Is the token the text at its offset? -/
def Token.StandsIn (tok : Token) (source : Text) : Prop :=
  tok.text = (source.drop tok.offset).take tok.text.length

/-- Does the character at this offset belong to the token? -/
def Token.covers (offset : Nat) (tok : Token) : Bool :=
  tok.offset ≤ offset && offset < tok.offset + tok.text.length

/-- Do these tokens, read from one mode and place on, cover the source up to
another mode and place, but for the gaps before them? -/
def Tiles (source : Text) : Mode → Nat → List Token → Mode → Nat → Prop
  | mode, pos, [], mode', stop => mode' = mode ∧ stop = pos
  | mode, pos, tok :: toks, mode', stop =>
    Gap source mode pos tok.offset ∧ tok.StandsIn source ∧
      Tiles source (mode.step tok.kind) (tok.offset + tok.text.length) toks mode' stop

/-! ### One step of the scanner -/

namespace Scanner

variable {s s' : Scanner} {b r : Text} {tok : Token} {fault : LexicalFault}

theorem gap_of_skips (ht : s.rest = b ++ r) (hb : s.mode.Skips b) (hs : s.pos ≤ s.source.length) :
    Gap s.source s.mode s.pos (s.pos + b.length) where
  le := Nat.le_add_right _ _
  inside := by
    have hlen := s.length_rest
    rw [ht, List.length_append] at hlen
    omega
  blanks := by
    intro i c hi hlt hc
    have hat : s.rest[i - s.pos]? = some c := by
      rw [rest, List.getElem?_drop, Nat.add_sub_cancel' hi]
      exact hc
    rw [ht, List.getElem?_append_left (by omega)] at hat
    exact List.all_eq_true.mp hb.1 c (List.mem_of_getElem? hat)
  empty := fun hm => by rw [hb.2 hm, List.length_nil, Nat.add_zero]

/-- What the next token adds to a tiling. -/
theorem next_ok (hn : s.next = (.ok tok, s')) (hs : s.pos ≤ s.source.length) :
    Gap s.source s.mode s.pos tok.offset ∧ tok.StandsIn s.source ∧ s'.source = s.source ∧
      s'.pos = tok.offset + tok.text.length ∧ s'.mode = s.mode.step tok.kind ∧
      (tok.kind ≠ .eof → tok.text ≠ []) := by
  cases gives_of_next hn with
  | @lexeme b x r k ht hb hx hr =>
    have hstands : x = (s.source.drop (s.pos + b.length)).take x.length := by
      have hdrop : s.source.drop (s.pos + b.length) = x ++ r := by
        rw [← List.drop_drop, ← rest, ht, List.drop_left]
      rw [hdrop, List.take_left]
    exact ⟨gap_of_skips ht hb hs, hstands, rfl, rfl, rfl, fun _ => (hx.ne_nil hr).1⟩
  | atEnd hb =>
    have hgap := gap_of_skips (r := []) (List.append_nil _).symm hb hs
    have hend : s.pos + s.rest.length = s.source.length := by
      rw [s.length_rest]
      omega
    rw [hend] at hgap
    exact ⟨hgap, rfl, rfl, rfl, (Mode.step_eof _).symm, fun hk => absurd rfl hk⟩

/-- Where a fault stands. -/
theorem next_error (hn : s.next = (.error fault, s')) (hs : s.pos ≤ s.source.length) :
    Gap s.source s.mode s.pos fault.offset ∧ fault.mode = s.mode ∧
      s.source[fault.offset]? = some fault.char := by
  obtain ⟨b, c, r, ht, hb, rfl, -⟩ := stuck_of_next hn
  have hat : s.source[s.pos + b.length]? = some c := by
    rw [← List.getElem?_drop, ← rest, ht, List.getElem?_append_right (Nat.le_refl _),
      Nat.sub_self, List.getElem?_cons_zero]
  exact ⟨gap_of_skips ht hb hs, rfl, hat⟩

end Scanner

/-! ### Tilings -/

variable {source : Text} {mode mode' mode'' : Mode} {pos stop stop' : Nat}

theorem Token.StandsIn.inside {tok : Token} (h : tok.StandsIn source)
    (hle : tok.offset ≤ source.length) : tok.offset + tok.text.length ≤ source.length := by
  have hlen := congrArg List.length h
  rw [List.length_take, List.length_drop] at hlen
  omega

theorem Tiles.append : ∀ {toks more : List Token} {mode : Mode} {pos : Nat},
    Tiles source mode pos toks mode' stop → Tiles source mode' stop more mode'' stop' →
      Tiles source mode pos (toks ++ more) mode'' stop'
  | [], _, _, _, ⟨hm, hp⟩, h' => by
    rw [hm, hp] at h'
    exact h'
  | _ :: _, _, _, _, ⟨hgap, hstands, h⟩, h' => ⟨hgap, hstands, h.append h'⟩

/-- A tiling goes on and stays inside the source. -/
theorem Tiles.le : ∀ {toks : List Token} {mode : Mode} {pos : Nat}, pos ≤ source.length →
    Tiles source mode pos toks mode' stop → pos ≤ stop ∧ stop ≤ source.length
  | [], _, _, hpos, ⟨_, hp⟩ => by
    rw [hp]
    exact ⟨Nat.le_refl _, hpos⟩
  | tok :: toks, _, _, hpos, ⟨hgap, hstands, h⟩ => by
    have hle := Tiles.le (hstands.inside hgap.inside) h
    have hbegin := hgap.le
    omega

theorem Tiles.le_offset : ∀ {toks : List Token} {mode : Mode} {pos : Nat},
    Tiles source mode pos toks mode' stop → ∀ tok ∈ toks, pos ≤ tok.offset
  | [], _, _, _ => by simp
  | tok :: toks, _, _, ⟨hgap, _, h⟩ => by
    refine List.forall_mem_cons.mpr ⟨hgap.le, fun other hother => ?_⟩
    have hle := h.le_offset other hother
    have hbegin := hgap.le
    omega

theorem Tiles.end_le : ∀ {toks : List Token} {mode : Mode} {pos : Nat}, pos ≤ source.length →
    Tiles source mode pos toks mode' stop → ∀ tok ∈ toks, tok.offset + tok.text.length ≤ stop
  | [], _, _, _, _ => by simp
  | _ :: _, _, _, _, ⟨hgap, hstands, h⟩ => by
    have hinside := hstands.inside hgap.inside
    exact List.forall_mem_cons.mpr ⟨(h.le hinside).1, h.end_le hinside⟩

/-- Tokens that begin later do not cover a character. -/
theorem Tiles.countP_eq_zero {toks : List Token} {i : Nat}
    (h : Tiles source mode pos toks mode' stop) (hi : i < pos) : toks.countP (·.covers i) = 0 := by
  rw [List.countP_eq_zero]
  intro tok htok
  have hle := h.le_offset tok htok
  simp only [Token.covers, Bool.and_eq_true, decide_eq_true_eq, not_and]
  omega

/-- **Every character but a blank belongs to one token.** -/
theorem Tiles.countP_covers : ∀ {toks : List Token} {mode : Mode} {pos i : Nat} {c : Char},
    Tiles source mode pos toks mode' stop → pos ≤ i → i < stop → source[i]? = some c →
      isBlank c = false → toks.countP (·.covers i) = 1
  | [], _, _, _, _, ⟨_, hp⟩, hle, hlt, _, _ => by omega
  | tok :: toks, _, _, i, c, ⟨hgap, hstands, h⟩, hle, hlt, hat, hc => by
    rw [List.countP_cons]
    by_cases hbefore : i < tok.offset
    · -- a gap holds blanks alone
      have hblank := hgap.blanks i c hle hbefore hat
      rw [hc] at hblank
      cases hblank
    by_cases hinside : i < tok.offset + tok.text.length
    · have hcovers : tok.covers i = true := by
        simp only [Token.covers, Bool.and_eq_true, decide_eq_true_eq]
        omega
      rw [h.countP_eq_zero hinside, if_pos hcovers]
    · have hcovers : tok.covers i = false := by simp [Token.covers, hinside]
      rw [h.countP_covers (Nat.le_of_not_lt hinside) hlt hat hc, if_neg (by simp [hcovers])]

/-- Up to the end of a gap behind the tokens, too, every character but a blank
belongs to one token. -/
theorem Tiles.countP_covers_gap {toks : List Token} {i offset : Nat} {c : Char}
    (h : Tiles source mode 0 toks mode' stop) (hgap : Gap source mode' stop offset)
    (hlt : i < offset) (hat : source[i]? = some c) (hc : isBlank c = false) :
    toks.countP (·.covers i) = 1 := by
  by_cases hstop : i < stop
  · exact h.countP_covers (Nat.zero_le i) hstop hat hc
  · have hblank := hgap.blanks i c (Nat.le_of_not_lt hstop) hlt hat
    rw [hc] at hblank
    cases hblank

/-- The tokens stand in the order of their offsets. -/
theorem Tiles.pairwise_offset : ∀ {toks : List Token} {mode : Mode} {pos : Nat},
    Tiles source mode pos toks mode' stop → (∀ tok ∈ toks, tok.text ≠ []) →
      (toks.map (·.offset)).Pairwise (· < ·)
  | [], _, _, _, _ => .nil
  | tok :: toks, _, _, ⟨_, _, h⟩, hne => by
    obtain ⟨htok, hne⟩ := List.forall_mem_cons.mp hne
    have hpos := List.length_pos_iff.mpr htok
    refine List.pairwise_cons.mpr ⟨fun offset hoffset => ?_, h.pairwise_offset hne⟩
    obtain ⟨other, hother, rfl⟩ := List.mem_map.mp hoffset
    have hle := h.le_offset other hother
    show tok.offset < other.offset
    omega

/-! ### What a scanner gives -/

/-- **The tokens of a scanner tile its source**, and none but the end is empty. -/
theorem Pulls.tiles {s s' : Scanner} {toks : List Token} (h : Pulls s toks s')
    (hs : s.pos ≤ s.source.length) :
    Tiles s.source s.mode s.pos toks s'.mode s'.pos ∧ s'.source = s.source ∧
      ∀ tok ∈ toks, tok.kind ≠ .eof → tok.text ≠ [] := by
  induction h with
  | none s => exact ⟨⟨rfl, rfl⟩, rfl, by simp⟩
  | @more s s₁ s₂ tok toks hp _ ih =>
    change s.next = _ at hp
    obtain ⟨hgap, hstands, hsource, hpos, hmode, hne⟩ := Scanner.next_ok hp hs
    have hle : s₁.pos ≤ s₁.source.length := by
      rw [hpos, hsource]
      exact hstands.inside hgap.inside
    obtain ⟨htiles, hsource', hrest⟩ := ih hle
    rw [hsource, hmode, hpos] at htiles
    exact ⟨⟨hgap, hstands, htiles⟩, hsource'.trans hsource, List.forall_mem_cons.mpr ⟨hne, hrest⟩⟩

/-- Tokens begin before the scanner that gave them stands. -/
theorem Pulls.offset_le {s s' : Scanner} {toks : List Token} (h : Pulls s toks s')
    (hs : s.pos ≤ s.source.length) : ∀ tok ∈ toks, tok.offset ≤ s'.pos := by
  intro tok htok
  have hend := (h.tiles hs).1.end_le hs tok htok
  exact Nat.le_trans (Nat.le_add_right _ _) hend

/-- A scan outside the tags always finds a token. -/
theorem Scanner.next_content {s s' : Scanner} {fault : LexicalFault} (hm : s.mode = .content) :
    s.next ≠ (.error fault, s') := by
  intro hn
  rcases Mode.scanContent_cases s.rest with ⟨k, x, h⟩ | ⟨-, h⟩
  · simp [Scanner.next, hm, Mode.scan, h] at hn
  · simp [Scanner.next, hm, Mode.scan, h] at hn

/-- Outside the tags no character is passed over. -/
theorem Tiles.head_offset {toks : List Token} (h : Tiles source .content pos toks mode' stop)
    (hne : toks ≠ []) : toks.head?.map (·.offset) = some pos := by
  cases toks with
  | nil => exact absurd rfl hne
  | cons tok toks => exact congrArg some (h.1.empty (by simp))

/-- **A scan leaves nothing out.** The tokens of a template tile it up to its
end, which is the last token and no other, or up to the character that begins
no lexeme. Either way each character before that which is not a blank belongs
to one token. -/
theorem drain_tiles (source : Text) :
    (∃ toks last, (Scanner.start source .content).drain = (toks, none, last) ∧
      tokenize source = .ok toks ∧ toks.head?.map (·.offset) = some 0 ∧
      Tiles source .content 0 toks last.mode source.length ∧
      (∃ before, toks = before ++ [Token.atEnd source.length] ∧ ∀ tok ∈ before, tok.kind ≠ .eof) ∧
      ∀ i c, source[i]? = some c → isBlank c = false → toks.countP (·.covers i) = 1) ∨
    ∃ toks fault last, (Scanner.start source .content).drain = (toks, some fault, last) ∧
      tokenize source = .error fault ∧ toks.head?.map (·.offset) = some 0 ∧
      (∃ stop, Tiles source .content 0 toks fault.mode stop ∧
        Gap source fault.mode stop fault.offset) ∧
      (∀ tok ∈ toks, tok.kind ≠ .eof) ∧ source[fault.offset]? = some fault.char ∧
      ∀ i c, i < fault.offset → source[i]? = some c → isBlank c = false →
        toks.countP (·.covers i) = 1 := by
  have hlen := (Scanner.start source .content).length_rest
  obtain ⟨toks, s, hne, hp, hend⟩ := Scanner.drainUpTo_cases
    (s := Scanner.start source .content) (Nat.lt_succ_of_le (Nat.le_of_eq hlen))
  obtain ⟨htiles, hsource, -⟩ := hp.tiles (Nat.zero_le _)
  have hle : s.pos ≤ s.source.length := by
    rw [hsource]
    exact (htiles.le (Nat.zero_le _)).2
  rcases hend with ⟨last, hn, hd⟩ | ⟨fault, hn, hd⟩
  · obtain ⟨hgap, hstands, -, -, hmode, -⟩ := Scanner.next_ok hn hle
    rw [hsource] at hgap hstands
    have hlast : Tiles source s.mode s.pos [Token.atEnd source.length] last.mode source.length :=
      ⟨hgap, hstands, hmode, rfl⟩
    have hall := htiles.append hlast
    have htokenize : tokenize source = .ok (toks ++ [Token.atEnd source.length]) := by
      have hdrain : (Scanner.start source .content).drain =
          (toks ++ [Token.atEnd source.length], none, last) := hd
      rw [tokenize, hdrain]
    refine .inl ⟨_, last, hd, htokenize, hall.head_offset (by simp), hall, ⟨toks, rfl, hne⟩, ?_⟩
    intro i c hat hc
    have hlt := (List.getElem?_eq_some_iff.mp hat).1
    exact hall.countP_covers (Nat.zero_le i) hlt hat hc
  · obtain ⟨hgap, hmode, hat⟩ := Scanner.next_error hn hle
    rw [hsource] at hgap hat
    have hbegun : toks ≠ [] := by
      rintro rfl
      cases hp
      exact Scanner.next_content rfl hn
    have htokenize : tokenize source = .error fault := by
      have hdrain : (Scanner.start source .content).drain = (toks, some fault, s) := hd
      rw [tokenize, hdrain]
    have hfirst := Tiles.head_offset htiles hbegun
    rw [← hmode] at hgap htiles
    exact .inr ⟨toks, fault, s, hd, htokenize, hfirst, ⟨s.pos, htiles, hgap⟩, hne, hat,
      fun _ _ hlt hati hc => htiles.countP_covers_gap hgap hlt hati hc⟩

end ClearSilver
