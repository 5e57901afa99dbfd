/-
# The stack of open blocks

A block on the stack was put there by two tokens beside each other
(`opened_of_mem`), and a stack holds its blocks in the order of their tokens,
the innermost last (`openBlocks_sublist`). So where the tokens stand in the
order of their offsets, each block begins before those inside it. Some tokens
open blocks if they put them on top of whatever is open (`Opens`).

Key definitions: `Opens`.
Key theorems: `opened_of_mem`, `openBlocks_sublist`, `openBlocks_ordered`,
`Opens.append`, `Opens.enter`, `Opens.close`.
-/
import ClearSilver.Block

namespace ClearSilver

variable {openTag keyword tok : Token} {k : Keyword} {us vs : List Token}
  {bs cs : List OpenBlock}

/-! ### Where the blocks come from -/

theorem blocksBehind_open (hk : keyword.kind = .keyword k) (hopens : k.opensBlock = true)
    (blocks : List OpenBlock) :
    blocksBehind openTag keyword blocks = ⟨openTag, keyword⟩ :: blocks := by
  simp [blocksBehind, hk, hopens]

/-- What the beginning of a tag does to the blocks. -/
theorem blocksBehind_cases (openTag keyword : Token) (blocks : List OpenBlock) :
    (∃ k, keyword.kind = .keyword k ∧ k.opensBlock = true ∧
      blocksBehind openTag keyword blocks = ⟨openTag, keyword⟩ :: blocks) ∨
    blocksBehind openTag keyword blocks = blocks.tail ∨
    blocksBehind openTag keyword blocks = blocks := by
  unfold blocksBehind
  split
  · exact .inr (.inl rfl)
  · rename_i k hk
    split
    · exact .inl ⟨k, hk, ‹_›, rfl⟩
    · exact .inr (.inr rfl)
  · exact .inr (.inr rfl)

/-- Is this block opened by two of these tokens, one behind the other? -/
def OpenBlock.OpenedIn (b : OpenBlock) (ts : List Token) : Prop :=
  ∃ us vs k, ts = us ++ b.openTag :: b.keyword :: vs ∧ b.openTag.kind = .tagOpen ∧
    b.keyword.kind = .keyword k ∧ k.opensBlock = true

theorem OpenBlock.OpenedIn.cons {b : OpenBlock} {ts : List Token} (h : b.OpenedIn ts)
    (tok : Token) : b.OpenedIn (tok :: ts) := by
  obtain ⟨us, vs, k, rfl, h⟩ := h
  exact ⟨tok :: us, vs, k, rfl, h⟩

/-- A block that is open was open before or is opened by the tokens. -/
theorem opened_of_mem : ∀ (ts : List Token) {blocks : List OpenBlock} {b : OpenBlock},
    b ∈ openBlocks blocks ts → b ∈ blocks ∨ b.OpenedIn ts
  | [], _, _, h => .inl h
  | [_], _, _, h => .inl h
  | openTag :: keyword :: ts, blocks, b, h => by
    by_cases ho : openTag.kind = .tagOpen
    · rw [openBlocks_tag ho] at h
      rcases opened_of_mem (keyword :: ts) h with hb | hb
      · rcases blocksBehind_cases openTag keyword blocks with ⟨k, hk, hopens, heq⟩ | heq | heq
        · rw [heq] at hb
          rcases List.mem_cons.mp hb with rfl | hb
          · exact .inr ⟨[], ts, k, rfl, ho, hk, hopens⟩
          · exact .inl hb
        · rw [heq] at hb
          exact .inl (List.mem_of_mem_tail hb)
        · rw [heq] at hb
          exact .inl hb
      · exact .inr (hb.cons openTag)
    · rw [openBlocks_cons ho] at h
      rcases opened_of_mem (keyword :: ts) h with hb | hb
      · exact .inl hb
      · exact .inr (hb.cons openTag)

/-! ### In which order they stand -/

theorem blocksBehind_sublist (openTag keyword : Token) (blocks : List OpenBlock) :
    ((blocksBehind openTag keyword blocks).reverse.map OpenBlock.openTag).Sublist
      (blocks.reverse.map OpenBlock.openTag ++ [openTag]) := by
  rcases blocksBehind_cases openTag keyword blocks with ⟨k, -, -, heq⟩ | heq | heq
  · rw [heq, List.reverse_cons, List.map_append]
    exact List.Sublist.refl _
  · rw [heq]
    have htail : blocks.tail.reverse.Sublist blocks.reverse :=
      (List.tail_sublist blocks).reverse
    exact (htail.map _).trans (List.sublist_append_left _ _)
  · rw [heq]
    exact List.sublist_append_left _ _

/-- **The blocks stand in the order of their tokens**, the innermost last. -/
theorem openBlocks_sublist : ∀ (ts : List Token) (blocks : List OpenBlock),
    ((openBlocks blocks ts).reverse.map OpenBlock.openTag).Sublist
      (blocks.reverse.map OpenBlock.openTag ++ ts)
  | [], blocks => List.sublist_append_left _ _
  | [_], blocks => List.sublist_append_left _ _
  | openTag :: keyword :: ts, blocks => by
    by_cases ho : openTag.kind = .tagOpen
    · rw [openBlocks_tag ho]
      have hrest := openBlocks_sublist (keyword :: ts) (blocksBehind openTag keyword blocks)
      have hhead := (blocksBehind_sublist openTag keyword blocks).append
        (List.Sublist.refl (keyword :: ts))
      rw [List.append_assoc, List.singleton_append] at hhead
      exact hrest.trans hhead
    · rw [openBlocks_cons ho]
      have hrest := openBlocks_sublist (keyword :: ts) blocks
      exact hrest.trans ((List.Sublist.refl _).append (List.sublist_cons_self _ _))

/-- Each block begins before those inside it. -/
theorem openBlocks_ordered {ts : List Token} (h : ts.Pairwise fun a b => a.offset < b.offset)
    {b b' : OpenBlock} {outer : List OpenBlock} (hb : openBlocks [] ts = b :: b' :: outer) :
    b'.openTag.offset < b.openTag.offset := by
  have hsub := openBlocks_sublist ts []
  rw [hb] at hsub
  have hpair := h.sublist hsub
  simp only [List.reverse_cons, List.map_append, List.append_assoc] at hpair
  have hlast := (List.pairwise_append.mp hpair).2.1
  exact (List.pairwise_cons.mp hlast).1 b.openTag (by simp)

/-! ### Tokens that open blocks -/

/-- Do these tokens put these blocks on top of those that are open? -/
def Opens (us : List Token) (bs : List OpenBlock) : Prop :=
  ∀ blocks vs, openBlocks blocks (us ++ vs) = openBlocks (bs ++ blocks) vs

namespace Opens

theorem nil : Opens [] [] := fun _ _ => rfl

theorem append (h : Opens us bs) (h' : Opens vs cs) : Opens (us ++ vs) (cs ++ bs) := by
  intro blocks rest
  rw [List.append_assoc, h, h', List.append_assoc]

/-- A token that begins no tag. -/
theorem cons (htok : tok.kind ≠ .tagOpen) (h : Opens us bs) : Opens (tok :: us) bs := by
  intro blocks rest
  rw [List.cons_append, openBlocks_cons htok, h]

/-- The beginning of a tag that neither opens a block nor closes one. -/
theorem pass (ho : openTag.kind = .tagOpen) (hk : keyword.kind = .keyword k)
    (hopens : k.opensBlock = false) (h : Opens us bs) : Opens (openTag :: keyword :: us) bs := by
  intro blocks rest
  have hsame : blocksBehind openTag keyword blocks = blocks := by
    simp [blocksBehind, hk, hopens]
  rw [List.cons_append, List.cons_append, openBlocks_tag ho, hsame,
    openBlocks_cons (by rw [hk]; simp), h]

/-- The tag that opens the outermost of the blocks. -/
theorem enter (ho : openTag.kind = .tagOpen) (hk : keyword.kind = .keyword k)
    (hopens : k.opensBlock = true) (h : Opens us bs) :
    Opens (openTag :: keyword :: us) (bs ++ [⟨openTag, keyword⟩]) := by
  intro blocks rest
  rw [List.cons_append, List.cons_append, openBlocks_tag ho, blocksBehind_open hk hopens,
    openBlocks_cons (by rw [hk]; simp), h, List.append_assoc, List.singleton_append]

/-- A close tag takes the innermost block away. -/
theorem close {slash last : Token} {b : OpenBlock} (ho : openTag.kind = .tagOpen)
    (hslash : slash.kind = .symbol .slash) (hk : keyword.kind ≠ .tagOpen)
    (hlast : last.kind ≠ .tagOpen) (h : Opens us (b :: bs)) :
    Opens (us ++ [openTag, slash, keyword, last]) bs := by
  intro blocks rest
  have htail : blocksBehind openTag slash (b :: bs ++ blocks) = bs ++ blocks := by
    simp [blocksBehind, hslash]
  rw [List.append_assoc, h]
  simp only [List.cons_append, List.nil_append]
  rw [openBlocks_tag ho, ← List.cons_append, htail, openBlocks_cons (by simp [hslash]),
    openBlocks_cons hk, openBlocks_cons hlast]

/-- The blocks that are open behind the tokens alone. -/
theorem openBlocks_eq (h : Opens us bs) : openBlocks [] us = bs := by
  have hall := h [] []
  rw [List.append_nil, List.append_nil] at hall
  exact hall

theorem openBlocks_last (h : Opens us bs) (last : Token) : openBlocks [] (us ++ [last]) = bs := by
  rw [h, List.append_nil]
  rfl

end Opens
end ClearSilver
