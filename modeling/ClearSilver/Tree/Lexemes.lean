/-
# The texts and the tags of a tree

A tree keeps the texts of some tokens as they are: literal text, comments,
words, numbers and strings without their quotes. `Node.ownTexts` are the
texts a node has itself and `Token.keptText?` is what a tree keeps of a token,
so both sides of the parser can be read as lists of texts. The tags that give
a tree its positions are those that open, apart from close tags and `else`.

Key definitions: `Node.ownTexts`, `Node.texts`, `Node.positions`,
`Token.keptText?`, `keptTexts`, `positionedTags`.
-/
import ClearSilver.Parser.Expression
import ClearSilver.Tree.Walk

namespace ClearSilver

/-! ### In a tree -/

def Variable.ownTexts : Variable → List Text
  | .name word => [word]
  | .decNumber digits => [digits]
  | .hexNumber digits => [digits]
  | .descend _ _ | .expand _ _ => []

def Expr.ownTexts : Expr → List Text
  | .string value => [value]
  | .decimal digits => [digits]
  | .hex digits => [digits]
  | _ => []

def Command.ownTexts : Command → List Text
  | .data text => [text]
  | .comment _ text => text.toList
  | .define _ called _ _ | .call _ called _ => called.words
  | .contentType _ value => [value]
  | _ => []

namespace Node

/-- The texts of a node, without those of the nodes below it. -/
def ownTexts : Node → List Text
  | command c => c.ownTexts
  | expr e => e.ownTexts
  | path v => v.ownTexts

/-- The texts of a tree in the order of its walk. -/
def texts (x : Node) : List Text := x.walk.flatMap ownTexts

def position? : Node → Option Position
  | command c => c.position?
  | expr _ | path _ => none

/-- The positions of a tree in the order of its walk. -/
def positions (x : Node) : List Position := x.walk.filterMap position?

end Node

/-! ### Among tokens -/

/-- What a tree keeps of a token. -/
def Token.keptText? (tok : Token) : Option Text :=
  match tok.kind with
  | .data | .comment | .word | .decimal | .hex => some tok.text
  | .string => some (unquoted tok.text)
  | _ => none

/-- What a tree keeps of some tokens, in order. -/
def keptTexts (tokens : List Token) : List Text := tokens.filterMap Token.keptText?

/-- Does a tag that begins with this kind of token have a position in the tree? -/
def isPositioned : Token.Kind → Bool
  | .symbol .slash | .keyword .elseTag => false
  | _ => true

/-- The offsets of the tags that have a position in the tree. -/
def positionedTags : List Token → List Nat
  | openTag :: keyword :: rest =>
    if openTag.kind = .tagOpen && isPositioned keyword.kind then
      openTag.offset :: positionedTags (keyword :: rest)
    else positionedTags (keyword :: rest)
  | _ => []

end ClearSilver
