/-
# What some tokens record of a tree

Tokens record texts and positions if these are what a tree keeps of them
(`Records`); along with that goes what they do to the blocks that are open.
Tokens in a row record what each of them does. A walk lists a tree from the
root to the children in order, so the tokens of a node are those of its
children with marks between them (`RecordsAll.node`, `RecordsNodes.command`).

Key definitions: `Records`, `RecordsNodes`, `RecordsAll`.
Key theorems: `Node.texts_eq`, `Node.positions_eq`, `Records.append`,
`Records.tag`, `RecordsAll.node`, `RecordsAll.lone`, `RecordsAll.block`.
-/
import ClearSilver.Block
import ClearSilver.Proofs.Tree.Preorder
import ClearSilver.Tree.Lexemes

namespace ClearSilver

namespace Node

/-- The texts of a tree are those of the root, then those of its children. -/
theorem texts_eq (x : Node) : x.texts = x.ownTexts ++ x.children.flatMap texts := by
  have hbelow : (x.children.flatMap walk).flatMap ownTexts = x.children.flatMap texts :=
    List.flatMap_assoc
  rw [texts, walk_eq, List.flatMap_cons, hbelow]

/-- The positions of a tree are that of the root, then those of its children. -/
theorem positions_eq (x : Node) :
    x.positions = x.position?.toList ++ x.children.flatMap positions := by
  have hbelow : (x.children.flatMap walk).filterMap position? = x.children.flatMap positions :=
    List.filterMap_flatMap
  rw [positions, walk_eq, List.filterMap_cons, hbelow]
  cases x.position? with
  | none => rfl
  | some p => rfl

end Node

/-- Is nothing kept of such a token, and does it begin no tag? -/
def Token.Kind.isMark : Token.Kind → Bool
  | .data | .comment | .word | .decimal | .hex | .string | .tagOpen => false
  | _ => true

/-- Is the whole text of such a token kept? -/
def Token.Kind.isText : Token.Kind → Bool
  | .data | .comment | .word | .decimal | .hex => true
  | _ => false

/-- Do these tokens record these texts and positions? The blocks that are open
behind them are `opened` of those before them. -/
structure Records (place : Nat → Position) (us : List Token) (ws : List Text)
    (ps : List Position) (opened : List OpenBlock → List OpenBlock) : Prop where
  texts : keptTexts us = ws
  positions : ∀ vs, (positionedTags (us ++ vs)).map place = ps ++ (positionedTags vs).map place
  blocks : ∀ blocks vs, openBlocks blocks (us ++ vs) = openBlocks (opened blocks) vs

/-- Do these tokens record these trees? -/
abbrev RecordsNodes (place : Nat → Position) (us : List Token) (xs : List Node)
    (opened : List OpenBlock → List OpenBlock) : Prop :=
  Records place us (xs.flatMap Node.texts) (xs.flatMap Node.positions) opened

/-- Do these tokens record these trees, and leave the open blocks as they are? -/
abbrev RecordsAll (place : Nat → Position) (us : List Token) (xs : List Node) : Prop :=
  RecordsNodes place us xs id

variable {place : Nat → Position} {us vs : List Token} {ws ws' : List Text}
  {ps ps' : List Position} {f g : List OpenBlock → List OpenBlock} {xs ys : List Node}
  {tok openTag keyword : Token}

/-! ### Tokens in a row -/

theorem positionedTags_cons (htok : tok.kind ≠ .tagOpen) (ts : List Token) :
    positionedTags (tok :: ts) = positionedTags ts := by
  cases ts with
  | nil => rfl
  | cons t ts => rw [positionedTags, if_neg (by simp [htok])]

theorem Token.Kind.isMark_spec (htok : tok.kind.isMark = true) :
    tok.keptText? = none ∧ tok.kind ≠ .tagOpen := by
  constructor
  · unfold Token.keptText?
    split <;> simp_all [Token.Kind.isMark]
  · intro ho
    rw [ho] at htok
    cases htok

namespace Records

theorem nil : Records place [] [] [] id := ⟨rfl, fun _ => rfl, fun _ _ => rfl⟩

theorem append (h : Records place us ws ps f) (h' : Records place vs ws' ps' g) :
    Records place (us ++ vs) (ws ++ ws') (ps ++ ps') (g ∘ f) where
  texts := by
    rw [← h.texts, ← h'.texts]
    exact List.filterMap_append
  positions rest := by rw [List.append_assoc, h.positions, h'.positions, List.append_assoc]
  blocks bs rest := by
    rw [List.append_assoc, h.blocks, h'.blocks]
    rfl

/-- A token that begins no tag. -/
theorem single (hkept : tok.keptText?.toList = ws) (ho : tok.kind ≠ .tagOpen) :
    Records place [tok] ws [] id where
  texts := by
    rw [← hkept, keptTexts, List.filterMap_cons]
    cases tok.keptText? with
    | none => rfl
    | some w => rfl
  positions rest := by
    rw [List.singleton_append, positionedTags_cons ho]
    rfl
  blocks bs rest := openBlocks_cons ho bs rest

theorem mark (htok : tok.kind.isMark = true) (h : Records place us ws ps f) :
    Records place (tok :: us) ws ps f := by
  obtain ⟨hkept, ho⟩ := Token.Kind.isMark_spec htok
  have hone : Records place [tok] [] [] id := single (by rw [hkept]; rfl) ho
  exact hone.append h

theorem ofText (htok : tok.kind.isText = true) : Records place [tok] [tok.text] [] id := by
  refine single ?_ fun ho => by simp [ho, Token.Kind.isText] at htok
  unfold Token.keptText?
  split <;> simp_all [Token.Kind.isText]

theorem ofString (htok : tok.kind = .string) : Records place [tok] [unquoted tok.text] [] id :=
  single (by simp [Token.keptText?, htok]) (by simp [htok])

/-- The beginning of a tag with a position. -/
theorem tag (ho : openTag.kind = .tagOpen) (hk : keyword.kind.isMark = true)
    (hpos : isPositioned keyword.kind = true) (h : Records place us ws ps f) :
    Records place (openTag :: keyword :: us) ws (place openTag.offset :: ps)
      (f ∘ blocksBehind openTag keyword) := by
  obtain ⟨hkept, hne⟩ := Token.Kind.isMark_spec hk
  have hopen : openTag.keptText? = none := by simp [Token.keptText?, ho]
  refine ⟨?_, fun vs => ?_, fun bs vs => ?_⟩
  · rw [keptTexts, List.filterMap_cons, hopen, List.filterMap_cons, hkept]
    exact h.texts
  · rw [List.cons_append, List.cons_append, positionedTags, if_pos (by simp [ho, hpos]),
      positionedTags_cons hne, List.map_cons, h.positions]
    rfl
  · rw [List.cons_append, List.cons_append, openBlocks_tag ho, openBlocks_cons hne, h.blocks]
    rfl

/-- The beginning of a tag without a position. -/
theorem unpositioned (ho : openTag.kind = .tagOpen) (hk : keyword.kind.isMark = true)
    (hpos : isPositioned keyword.kind = false) (h : Records place us ws ps f) :
    Records place (openTag :: keyword :: us) ws ps (f ∘ blocksBehind openTag keyword) := by
  obtain ⟨hkept, hne⟩ := Token.Kind.isMark_spec hk
  have hopen : openTag.keptText? = none := by simp [Token.keptText?, ho]
  refine ⟨?_, fun vs => ?_, fun bs vs => ?_⟩
  · rw [keptTexts, List.filterMap_cons, hopen, List.filterMap_cons, hkept]
    exact h.texts
  · rw [List.cons_append, List.cons_append, positionedTags, if_neg (by simp [hpos]),
      positionedTags_cons hne, h.positions]
  · rw [List.cons_append, List.cons_append, openBlocks_tag ho, openBlocks_cons hne, h.blocks]
    rfl

end Records

/-! ### Nodes -/

theorem RecordsNodes.append (h : RecordsNodes place us xs f) (h' : RecordsNodes place vs ys g) :
    RecordsNodes place (us ++ vs) (xs ++ ys) (g ∘ f) := by
  rw [RecordsNodes, List.flatMap_append, List.flatMap_append]
  exact Records.append h h'

theorem RecordsAll.append (h : RecordsAll place us xs) (h' : RecordsNodes place vs ys f) :
    RecordsNodes place (us ++ vs) (xs ++ ys) f :=
  RecordsNodes.append h h'

/-- A node without a position is recorded with its own texts and its children. -/
theorem RecordsAll.node {x : Node} (hx : x.position? = none) (h : Records place us
    (x.ownTexts ++ x.children.flatMap Node.texts) (x.children.flatMap Node.positions) id) :
    RecordsAll place us [x] := by
  have hpositions : x.positions = x.children.flatMap Node.positions := by
    rw [Node.positions_eq, hx]
    rfl
  rw [RecordsAll, RecordsNodes, List.flatMap_singleton, List.flatMap_singleton, Node.texts_eq,
    hpositions]
  exact h

/-- A command with the position of its tag is recorded behind the beginning of
the tag with its own texts and its children. -/
theorem RecordsNodes.command {c : Command} (hc : c.position? = some (place openTag.offset))
    (ho : openTag.kind = .tagOpen) (hk : keyword.kind.isMark = true)
    (hpos : isPositioned keyword.kind = true)
    (h : Records place us (c.ownTexts ++ (Node.command c).children.flatMap Node.texts)
      ((Node.command c).children.flatMap Node.positions) f) :
    RecordsNodes place (openTag :: keyword :: us) [.command c]
      (f ∘ blocksBehind openTag keyword) := by
  have hpositions : (Node.command c).positions =
      place openTag.offset :: (Node.command c).children.flatMap Node.positions := by
    rw [Node.positions_eq, Node.position?, hc]
    rfl
  rw [RecordsNodes, List.flatMap_singleton, List.flatMap_singleton, Node.texts_eq, hpositions]
  exact h.tag ho hk hpos

/-- Does this begin a tag that has a position and opens no block? -/
def Token.Kind.beginsLone : Token.Kind → Bool
  | .commentStart => true
  | .keyword k => !k.opensBlock && isPositioned (.keyword k)
  | _ => false

/-- A tag that opens no block. -/
theorem RecordsAll.lone {c : Command} (hc : c.position? = some (place openTag.offset))
    (ho : openTag.kind = .tagOpen) (hk : keyword.kind.beginsLone = true)
    (h : Records place us (c.ownTexts ++ (Node.command c).children.flatMap Node.texts)
      ((Node.command c).children.flatMap Node.positions) f) :
    RecordsNodes place (openTag :: keyword :: us) [.command c] f := by
  have hspec : keyword.kind.isMark = true ∧ isPositioned keyword.kind = true ∧
      blocksBehind openTag keyword = id := by
    unfold Token.Kind.beginsLone at hk
    split at hk
    · rename_i h
      refine ⟨by rw [h]; rfl, by rw [h]; rfl, funext fun bs => ?_⟩
      simp only [blocksBehind, h]
      rfl
    · rename_i k h
      rw [Bool.and_eq_true, Bool.not_eq_true'] at hk
      refine ⟨by rw [h]; rfl, by rw [h]; exact hk.2, funext fun bs => ?_⟩
      simp only [blocksBehind, h, hk.1]
      rfl
    · cases hk
  have htag := RecordsNodes.command hc ho hspec.1 hspec.2.1 h
  rw [hspec.2.2] at htag
  exact htag

/-- A block, whose close tag closes it. -/
theorem RecordsAll.block {c : Command} (hc : c.position? = some (place openTag.offset))
    (ho : openTag.kind = .tagOpen) {k : Keyword} (hk : keyword.kind = .keyword k)
    (hopens : k.opensBlock = true)
    (h : Records place us (c.ownTexts ++ (Node.command c).children.flatMap Node.texts)
      ((Node.command c).children.flatMap Node.positions) List.tail) :
    RecordsAll place (openTag :: keyword :: us) [.command c] := by
  have hpos : isPositioned keyword.kind = true := by
    rw [hk]
    cases k <;> first | rfl | cases hopens
  have htag := RecordsNodes.command hc ho (by rw [hk]; rfl) hpos h
  have hclosed : List.tail ∘ blocksBehind openTag keyword = id := by
    funext bs
    simp [blocksBehind, hk, hopens]
  rw [hclosed] at htag
  exact htag

end ClearSilver
