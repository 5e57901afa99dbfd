/-
# Where literal text and comments end

Raw text goes on up to a mark: literal text to the next place where a tag
opens, a comment to the next place where the tag closes, and either to the end
of the source where there is no such place (`NextOrEnd`). A mark itself is a
token of its own. The marks are told here by what stands at a place of the
source; that raw text holds none, not even one that begins in it and ends
behind it, is what its lexemes say of themselves (`Text.append_of_occurs`).

Key definitions: `OpensAt`, `ClosesAt`, `NextOrEnd`.
Key theorems: `nextOrEnd_of_occurs`, `next_raw_text`.
-/
import ClearSilver.Proofs.Scan.Tiling
import Mathlib.Order.Bounds.Basic

namespace ClearSilver

/-! ### Places of a source -/

/-- Does a tag open at this place: `<?cs` with a blank after it? -/
def OpensAt (source : Text) (i : Nat) : Prop :=
  ∃ c r, isBlank c = true ∧ source.drop i = "<?cs" ++ c :: r

/-- Does `?>` stand at this place? -/
def ClosesAt (source : Text) (i : Nat) : Prop := ∃ r, source.drop i = "?>" ++ r

/-- Is `q` the first place behind `p` with the property, or `stop` where there
is no such place? -/
def NextOrEnd (property : Nat → Prop) (stop p q : Nat) : Prop :=
  IsLeast {i | p < i ∧ property i} q ∨ (∀ i, p < i → ¬ property i) ∧ q = stop

variable {source x r : Text} {p : Nat}

theorem opensAt_iff (i : Nat) : OpensAt source i ↔ opensTag (source.drop i) = true :=
  opensTag_eq_true.symm

theorem closesAt_iff (i : Nat) : ClosesAt source i ↔ closesTag (source.drop i) = true :=
  closesTag_eq_true.symm

/-! ### Up to a mark -/

section

variable {mark : Text → Bool}
  (happ : ∀ {v r : Text}, v ≠ [] → r = [] ∨ mark r = true → mark (v ++ r) = true → mark v = true)
include happ

/-- In a text without a mark none begins. -/
theorem not_mark_inside (ht : source.drop p = x ++ r) (hx : x.occurs mark = false)
    (hr : r = [] ∨ mark r = true) {i : Nat} (hle : p ≤ i) (hi : i < p + x.length) :
    mark (source.drop i) = false := by
  have hdrop : source.drop i = x.drop (i - p) ++ r := by
    have hinside : i - p ≤ x.length := by omega
    rw [← List.drop_append_of_le_length hinside, ← ht, List.drop_drop, Nat.add_sub_cancel' hle]
  have hne : x.drop (i - p) ≠ [] := by
    rw [Ne, List.drop_eq_nil_iff]
    omega
  rw [hdrop]
  exact Text.append_of_occurs happ hx hr _ _ (List.take_append_drop (i - p) x).symm hne

/-- **A text without a mark, up to a mark or the end**, begins at no mark and
ends at the next one. -/
theorem nextOrEnd_of_occurs {property : Nat → Prop}
    (hp : ∀ i, property i ↔ mark (source.drop i) = true) (ht : source.drop p = x ++ r)
    (hne : x ≠ []) (hx : x.occurs mark = false) (hr : r = [] ∨ mark r = true) :
    ¬ property p ∧ NextOrEnd property source.length p (p + x.length) := by
  have hinside : ∀ i, p ≤ i → i < p + x.length → ¬ property i := by
    intro i hle hi
    rw [hp, not_mark_inside happ ht hx hr hle hi]
    exact Bool.false_ne_true
  have hlt : p < p + x.length := Nat.lt_add_of_pos_right (List.length_pos_iff.mpr hne)
  have hbehind : source.drop (p + x.length) = r := by
    rw [← List.drop_drop, ht, List.drop_left]
  refine ⟨hinside p (Nat.le_refl p) hlt, ?_⟩
  rcases hr with rfl | hr
  · -- nothing is left behind the text
    have hnil : mark [] = false := Text.occurs_eq_false.mp hx x [] (List.append_nil x).symm
    have hend : source.length ≤ p + x.length := List.drop_eq_nil_iff.mp hbehind
    refine .inr ⟨fun i hi => ?_, ?_⟩
    · by_cases hlast : i < p + x.length
      · exact hinside i hi.le hlast
      · rw [hp, List.drop_eq_nil_of_le (by omega), hnil]
        exact Bool.false_ne_true
    · have hlen := congrArg List.length ht
      rw [List.length_drop, List.append_nil] at hlen
      omega
  · have hmark : property (p + x.length) := by rwa [hp, hbehind]
    refine .inl ⟨⟨hlt, hmark⟩, fun i hi => ?_⟩
    exact Nat.le_of_not_lt fun hbefore => hinside i hi.1.le hbefore hi.2

end

/-! ### The tokens of raw text -/

/-- Where characters are left, a mode that passes over none has not come to the end. -/
theorem Mode.not_skips {mode : Mode} (hm : mode ≠ .arguments) (hp : p < source.length) :
    ¬ mode.Skips (source.drop p) := by
  intro hb
  have hend := List.drop_eq_nil_iff.mp (hb.2 hm)
  omega

/-- Outside the tags, a tag opens or literal text goes on to the next one. -/
theorem next_content_cases (hp : p < source.length) :
    (OpensAt source p ∧ ∃ b r : Text, source.drop p = "<?cs" ++ (b ++ r) ∧ b ≠ [] ∧
      b.all isBlank = true ∧ r.Stops isBlank ∧ (⟨source, p, .content⟩ : Scanner).next =
        (.ok ⟨.tagOpen, "<?cs" ++ b, p⟩, ⟨source, p + 4 + b.length, .command⟩)) ∨
    (¬ OpensAt source p ∧ ∃ q, NextOrEnd (OpensAt source) source.length p q ∧
      (⟨source, p, .content⟩ : Scanner).next =
        (.ok ⟨.data, (source.drop p).take (q - p), p⟩, ⟨source, q, .content⟩)) := by
  rcases (⟨source, p, .content⟩ : Scanner).next_cases with
    ⟨b, k, x, r, ht, hb, hx, hr, hn⟩ | ⟨b, c, r, -, -, hn⟩ | ⟨hb, -⟩
  · obtain rfl : b = [] := hb.2 (by simp)
    change source.drop p = x ++ r at ht
    cases k <;> simp only [Mode.IsLexeme, Mode.Ends] at hx hr
    case data =>
      obtain ⟨hat, hnext⟩ := nextOrEnd_of_occurs opensTag_append opensAt_iff ht hx.1 hx.2 hr
      refine .inr ⟨hat, p + x.length, hnext, ?_⟩
      rw [hn, Nat.add_sub_cancel_left, ht, List.take_left]
      rfl
    case tagOpen =>
      obtain ⟨b, hne, hb, rfl⟩ := hx
      rw [List.append_assoc] at ht
      refine .inl ⟨?_, b, r, ht, hne, hb, hr, ?_⟩
      · obtain ⟨c, b, rfl⟩ := List.exists_cons_of_ne_nil hne
        rw [List.all_cons, Bool.and_eq_true] at hb
        exact ⟨c, b ++ r, hb.1, ht⟩
      · rw [hn, List.length_append, ← Nat.add_assoc]
        rfl
  · exact absurd hn (Scanner.next_content rfl)
  · exact absurd hb (Mode.not_skips (by simp) hp)

/-- Inside a comment, the tag ends or the comment goes on to the next end of a tag. -/
theorem next_comment_cases (hp : p < source.length) :
    (ClosesAt source p ∧ (⟨source, p, .comment⟩ : Scanner).next =
      (.ok ⟨.tagClose, "?>", p⟩, ⟨source, p + 2, .content⟩)) ∨
    (¬ ClosesAt source p ∧ ∃ q, NextOrEnd (ClosesAt source) source.length p q ∧
      (⟨source, p, .comment⟩ : Scanner).next =
        (.ok ⟨.comment, (source.drop p).take (q - p), p⟩, ⟨source, q, .comment⟩)) := by
  rcases (⟨source, p, .comment⟩ : Scanner).next_cases with
    ⟨b, k, x, r, ht, hb, hx, hr, hn⟩ | ⟨b, c, r, -, -, hn⟩ | ⟨hb, -⟩
  · obtain rfl : b = [] := hb.2 (by simp)
    change source.drop p = x ++ r at ht
    cases k <;> simp only [Mode.IsLexeme, Mode.Ends] at hx hr
    case comment =>
      obtain ⟨hat, hnext⟩ := nextOrEnd_of_occurs closesTag_append closesAt_iff ht hx.1 hx.2 hr
      refine .inr ⟨hat, p + x.length, hnext, ?_⟩
      rw [hn, Nat.add_sub_cancel_left, ht, List.take_left]
      rfl
    case tagClose =>
      subst hx
      exact .inl ⟨⟨r, ht⟩, hn⟩
  · rcases Mode.scanComment_cases (source.drop p) with ⟨k, x, h⟩ | ⟨-, h⟩
    · simp [Scanner.next, Scanner.rest, Mode.scan, h] at hn
    · simp [Scanner.next, Scanner.rest, Mode.scan, h] at hn
  · exact absurd hb (Mode.not_skips (by simp) hp)

/-- **Literal text and comments end where they should.** Outside the tags, a
tag that opens is a token with all the blanks behind it, and any other text is
literal up to the next place where a tag opens. Inside a comment, `?>` ends the
tag, and any other text is the comment up to the next `?>`. -/
theorem next_raw_text (hp : p < source.length) :
    ((OpensAt source p → ∃ b r : Text, source.drop p = "<?cs" ++ (b ++ r) ∧ b ≠ [] ∧
        b.all isBlank = true ∧ r.Stops isBlank ∧ (⟨source, p, .content⟩ : Scanner).next =
          (.ok ⟨.tagOpen, "<?cs" ++ b, p⟩, ⟨source, p + 4 + b.length, .command⟩)) ∧
      (¬ OpensAt source p → ∃ q, NextOrEnd (OpensAt source) source.length p q ∧
        (⟨source, p, .content⟩ : Scanner).next =
          (.ok ⟨.data, (source.drop p).take (q - p), p⟩, ⟨source, q, .content⟩))) ∧
    (ClosesAt source p → (⟨source, p, .comment⟩ : Scanner).next =
        (.ok ⟨.tagClose, "?>", p⟩, ⟨source, p + 2, .content⟩)) ∧
      (¬ ClosesAt source p → ∃ q, NextOrEnd (ClosesAt source) source.length p q ∧
        (⟨source, p, .comment⟩ : Scanner).next =
          (.ok ⟨.comment, (source.drop p).take (q - p), p⟩, ⟨source, q, .comment⟩)) := by
  constructor
  · rcases next_content_cases hp with ⟨hat, hopens⟩ | ⟨hat, hliteral⟩
    · exact ⟨fun _ => hopens, fun hnot => absurd hat hnot⟩
    · exact ⟨fun h => absurd h hat, fun _ => hliteral⟩
  · rcases next_comment_cases hp with ⟨hat, hcloses⟩ | ⟨hat, hcomment⟩
    · exact ⟨fun _ => hcloses, fun hnot => absurd hat hnot⟩
    · exact ⟨fun h => absurd h hat, fun _ => hcomment⟩

/-- Two false beginnings of a tag before one that opens, and a `?` before the
end of a comment. -/
theorem next_raw_text_near_misses :
    (¬ OpensAt "a<?cs<?csx<?cs b" 1 ∧ (∃ q, NextOrEnd (OpensAt "a<?cs<?csx<?cs b") 16 1 q ∧
        (⟨"a<?cs<?csx<?cs b", 1, .content⟩ : Scanner).next =
          (.ok ⟨.data, (("a<?cs<?csx<?cs b" : Text).drop 1).take (q - 1), 1⟩,
            ⟨"a<?cs<?csx<?cs b", q, .content⟩)) ∧
      OpensAt "a<?cs<?csx<?cs b" 10 ∧ ∃ b r : Text,
        ("a<?cs<?csx<?cs b" : Text).drop 10 = "<?cs" ++ (b ++ r) ∧ b ≠ [] ∧
          b.all isBlank = true ∧ r.Stops isBlank ∧
          (⟨"a<?cs<?csx<?cs b", 10, .content⟩ : Scanner).next =
            (.ok ⟨.tagOpen, "<?cs" ++ b, 10⟩, ⟨"a<?cs<?csx<?cs b", 14 + b.length, .command⟩)) ∧
    ¬ ClosesAt "c??>" 0 ∧ (∃ q, NextOrEnd (ClosesAt "c??>") 4 0 q ∧
        (⟨"c??>", 0, .comment⟩ : Scanner).next =
          (.ok ⟨.comment, (("c??>" : Text).drop 0).take (q - 0), 0⟩, ⟨"c??>", q, .comment⟩)) ∧
      ClosesAt "c??>" 2 ∧ (⟨"c??>", 2, .comment⟩ : Scanner).next =
        (.ok ⟨.tagClose, "?>", 2⟩, ⟨"c??>", 4, .content⟩) := by
  have hliteral : ¬ OpensAt "a<?cs<?csx<?cs b" 1 := by
    rw [opensAt_iff]
    decide
  have hopens : OpensAt "a<?cs<?csx<?cs b" 10 := by
    rw [opensAt_iff]
    decide
  have hcomment : ¬ ClosesAt "c??>" 0 := by
    rw [closesAt_iff]
    decide
  have hcloses : ClosesAt "c??>" 2 := by
    rw [closesAt_iff]
    decide
  exact ⟨⟨hliteral, (next_raw_text (by decide)).1.2 hliteral,
      hopens, (next_raw_text (by decide)).1.1 hopens⟩,
    hcomment, (next_raw_text (by decide)).2.2 hcomment,
    hcloses, (next_raw_text (by decide)).2.1 hcloses⟩

end ClearSilver
