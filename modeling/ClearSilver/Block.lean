/-
# Open blocks

A tag opens a block if commands and a close tag belong to its keyword, and a
close tag closes the innermost open block. Which blocks are open behind some
tokens is told by a stack that goes along with them, without any grammar: an
opening tag is put onto it and a close tag takes one away. The tags that go on
with a block, `elif` and `else`, leave it as it is.

Key definitions: `Keyword.opensBlock`, `OpenBlock`, `OpenBlock.closeTag`,
`openBlocks`.
Key theorems: `openBlocks_cons`, `openBlocks_tag`.
-/
import ClearSilver.Token

namespace ClearSilver

/-- Do commands and a close tag belong to a tag with this keyword? -/
def Keyword.opensBlock : Keyword → Bool
  | ifTag | withTag | escape | autoescape | loop | each | alt | defTag | inline => true
  | _ => false

/-- A block by the tokens that open it: the mark of its tag and its keyword. -/
structure OpenBlock where
  openTag : Token
  keyword : Token
deriving DecidableEq

/-- The close tag of a block. -/
def OpenBlock.closeTag (b : OpenBlock) : Text := "<?cs /" ++ b.keyword.text ++ " ?>"

/-- The blocks that are open behind the beginning of a tag, the innermost first. -/
def blocksBehind (openTag keyword : Token) (blocks : List OpenBlock) : List OpenBlock :=
  match keyword.kind with
  | .symbol .slash => blocks.tail
  | .keyword k => if k.opensBlock then ⟨openTag, keyword⟩ :: blocks else blocks
  | _ => blocks

/-- The blocks that are open behind some tokens, where `blocks` are open before
them. The innermost comes first. -/
def openBlocks : (blocks : List OpenBlock) → List Token → List OpenBlock
  | blocks, openTag :: keyword :: rest =>
    if openTag.kind = .tagOpen then
      openBlocks (blocksBehind openTag keyword blocks) (keyword :: rest)
    else openBlocks blocks (keyword :: rest)
  | blocks, _ => blocks

variable {tok openTag : Token}

/-- A token that begins no tag leaves the blocks as they are. -/
theorem openBlocks_cons (htok : tok.kind ≠ .tagOpen) (blocks : List OpenBlock) (ts : List Token) :
    openBlocks blocks (tok :: ts) = openBlocks blocks ts := by
  cases ts with
  | nil => rfl
  | cons t ts => rw [openBlocks, if_neg htok]

theorem openBlocks_tag (ho : openTag.kind = .tagOpen) (keyword : Token) (blocks : List OpenBlock)
    (ts : List Token) : openBlocks blocks (openTag :: keyword :: ts) =
      openBlocks (blocksBehind openTag keyword blocks) (keyword :: ts) := by
  rw [openBlocks, if_pos ho]

end ClearSilver
