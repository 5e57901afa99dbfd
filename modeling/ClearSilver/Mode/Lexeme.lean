/-
# Every lexeme stands in the text and is not empty

Whatever the mode, the lexeme it finds is the text that stands there, past the
blanks passed over; it has at least one character, and it is not the end
(`Mode.scan_lexeme`). So a token that is not the end moves the scanner on.

Key theorems: `Mode.scanContent_lexeme`, `Mode.scanCommand_lexeme`,
`Mode.scanArgument_lexeme`, `Mode.scanComment_lexeme`, `Mode.scan_lexeme`.
-/
import ClearSilver.Mode

namespace ClearSilver

theorem Text.startsWith_iff {t start : Text} : t.startsWith start = true ↔ start <+: t := by
  simp [Text.startsWith]

theorem opensTag_take {t : Text} (h : opensTag t = true) :
    ("<?cs".toList ++ (t.drop 4).takeWhile isBlank) <+: t := by
  simp only [opensTag, Bool.and_eq_true, Text.startsWith_iff] at h
  obtain ⟨r, rfl⟩ := h.1
  exact List.prefix_append_right_inj _ |>.mpr (List.takeWhile_prefix _)

theorem Text.upTo_prefix (p : Text → Bool) (t : Text) : Text.upTo p t <+: t :=
  ⟨_, Text.upTo_append_after p t⟩

namespace Mode

theorem scanContent_lexeme {t : Text} {n : Nat} {k : Token.Kind} {x : Text}
    (h : scanContent t = .lexeme n k x) : x <+: t.drop n ∧ x ≠ [] ∧ k ≠ .eof := by
  unfold scanContent at h
  split at h
  · cases h
  · split at h
    · cases h
      exact ⟨opensTag_take ‹_›, by simp, by simp⟩
    · cases h
      exact ⟨(List.prefix_cons_inj _).mpr (Text.upTo_prefix _ _), by simp, by simp⟩

theorem scanComment_lexeme {t : Text} {n : Nat} {k : Token.Kind} {x : Text}
    (h : scanComment t = .lexeme n k x) : x <+: t.drop n ∧ x ≠ [] ∧ k ≠ .eof := by
  unfold scanComment at h
  split at h
  · cases h
  · split at h
    · cases h
      exact ⟨Text.startsWith_iff.mp ‹_›, by simp, by simp⟩
    · cases h
      exact ⟨(List.prefix_cons_inj _).mpr (Text.upTo_prefix _ _), by simp, by simp⟩

theorem commandWordKind_ne_eof (w : Text) : commandWordKind w ≠ .eof := by
  unfold commandWordKind
  split <;> simp

theorem wordKind_ne_eof (w : Text) : wordKind w ≠ .eof := by
  unfold wordKind
  repeat' split
  all_goals simp

theorem scanCommand_lexeme {t : Text} {n : Nat} {k : Token.Kind} {x : Text}
    (h : scanCommand t = .lexeme n k x) : x <+: t.drop n ∧ x ≠ [] ∧ k ≠ .eof := by
  have ht : t.takeWhile isBlank ++ t.dropWhile isBlank = t := List.takeWhile_append_dropWhile
  have key : ∀ y, y <+: t.dropWhile isBlank → t.takeWhile isBlank ++ y <+: t := by
    intro y hy
    conv => rhs; rw [← ht]
    exact (List.prefix_append_right_inj _).mpr hy
  unfold scanCommand at h
  simp only at h
  split at h
  · cases h
    exact ⟨key _ (Text.startsWith_iff.mp ‹_›), by simp, by simp⟩
  · split at h
    · rename_i r hr
      cases h
      refine ⟨key _ ?_, by simp, by simp⟩
      rw [hr]
      exact (List.prefix_cons_inj _).mpr (List.takeWhile_prefix _)
    · rename_i r hr
      cases h
      refine ⟨key _ ?_, by simp, by simp⟩
      rw [hr]
      exact (List.prefix_cons_inj _).mpr (List.takeWhile_prefix _)
    · split at h
      · cases h
        exact ⟨List.takeWhile_prefix _, ‹_›, by simp⟩
      · rename_i hb
        have hb : t.takeWhile isBlank = [] := by simpa using hb
        rw [hb, List.nil_append] at ht
        split at h
        · cases h
        · rename_i r hr
          cases h
          rw [ht] at hr
          exact ⟨⟨r, by simp [hr]⟩, by simp, by simp⟩
        · rename_i r hr
          cases h
          rw [ht] at hr
          exact ⟨⟨r, by simp [hr]⟩, by simp, by simp⟩
        · rename_i c r _ _ hr
          rw [ht] at hr
          split at h
          · rename_i hc
            cases h
            refine ⟨?_, ?_, commandWordKind_ne_eof _⟩
            · simp only [List.drop_zero]
              conv => rhs; rw [hr]
              exact List.takeWhile_prefix _
            · simp [isWordChar, hc]
          · cases h

theorem scanArgument_lexeme {t : Text} {m n : Nat} {k : Token.Kind} {x : Text}
    (h : scanArgument m t = .lexeme n k x) : n = m ∧ x <+: t ∧ x ≠ [] ∧ k ≠ .eof := by
  unfold scanArgument at h
  split at h
  · cases h
  · split at h
    · cases h
      exact ⟨rfl, Text.startsWith_iff.mp ‹_›, by simp, by simp⟩
    · split at h
      · split at h
        · rename_i c r _ _ hc
          cases h
          refine ⟨rfl, (List.prefix_cons_inj _).mpr ?_, by simp, by simp⟩
          have hc : c ∈ r := by simpa using hc
          have hd : r.dropWhile (· ≠ c) ≠ [] := by
            intro h
            have := List.takeWhile_append_dropWhile (p := (· ≠ c)) (l := r)
            rw [h, List.append_nil] at this
            have := List.all_takeWhile (p := (· ≠ c)) (l := r)
            rw [‹r.takeWhile (· ≠ c) = r›] at this
            simpa using List.all_eq_true.mp this c hc
          obtain ⟨d, u, hu⟩ := List.exists_cons_of_ne_nil hd
          have hdc : d = c := by
            have h1 := List.head_dropWhile_not (· ≠ c) hd
            have h2 : (r.dropWhile (· ≠ c)).head hd = d := by simp only [hu, List.head_cons]
            rw [h2] at h1
            simpa using h1
          refine ⟨u, ?_⟩
          have := List.takeWhile_append_dropWhile (p := (· ≠ c)) (l := r)
          rw [hu, hdc] at this
          simpa using this
        · cases h
      · split at h
        · rename_i c r _ _ hc
          cases h
          refine ⟨rfl, List.takeWhile_prefix _, ?_, wordKind_ne_eof _⟩
          simp [hc]
        · split at h
          · rename_i s hs
            cases h
            have := List.find?_some hs
            refine ⟨rfl, Text.startsWith_iff.mp this, ?_, by simp⟩
            cases s <;> simp [Symbol.text]
          · cases h

/-- A lexeme stands in the text past the blanks, is not empty and is not the
end. -/
theorem scan_lexeme {mode : Mode} {t : Text} {n : Nat} {k : Token.Kind} {x : Text}
    (h : mode.scan t = .lexeme n k x) : x <+: t.drop n ∧ x ≠ [] ∧ k ≠ .eof := by
  cases mode with
  | content => exact scanContent_lexeme h
  | command => exact scanCommand_lexeme h
  | comment => exact scanComment_lexeme h
  | arguments =>
    obtain ⟨rfl, hx, hne, hk⟩ := scanArgument_lexeme h
    refine ⟨?_, hne, hk⟩
    have : t.drop (t.takeWhile isBlank).length = t.dropWhile isBlank := by
      conv => lhs; arg 2; rw [← List.takeWhile_append_dropWhile (p := isBlank) (l := t)]
      exact List.drop_left
    rw [this]
    exact hx

end Mode

end ClearSilver
