/-
# Canonical trees

Not every tree is written by a template: a tree read from data may hold texts
that no lexeme has, siblings inside siblings or operators without a sign. A
node is regular if a template could hold it, given that the nodes below it
are regular, and a tree is canonical if all its nodes are.

Key definitions: `Text.occurs`, `isPlainWord`, `BinaryOp.symbol?`,
`Node.isRegular`, `Node.isCanonical`.
-/
import ClearSilver.Mode
import ClearSilver.Tree.Walk

namespace ClearSilver

/-! ### Texts -/

/-- Does some suffix of the text have the property? -/
def Text.occurs (p : Text → Bool) : Text → Bool
  | [] => p []
  | c :: r => p (c :: r) || occurs p r

/-- Is the text a word among the arguments that is not a number? -/
def isPlainWord (t : Text) : Bool :=
  !t.isEmpty && t.all isWordChar && !isDecimalWord t && !isHexWord t

/-- Can the text stand between quotes of one sort? -/
def isQuotable (t : Text) : Bool := !t.contains '"' || !t.contains '\''

/-! ### Variables and expressions -/

/-- Is the variable one step of a path? -/
def Variable.isStep : Variable → Bool
  | .name _ | .decNumber _ | .hexNumber _ => true
  | .descend _ _ | .expand _ _ => false

def Variable.isRegular : Variable → Bool
  | .name word => isPlainWord word
  | .decNumber digits => isDecimalWord digits
  | .hexNumber digits => isHexWord digits
  | .descend _ child => child.isStep
  | .expand _ _ => true

/-- Is the expression a number without a sign? -/
def Expr.isNumber : Expr → Bool
  | .decimal _ | .hex _ => true
  | _ => false

/-- The symbol that writes an operator, if there is one. -/
def BinaryOp.symbol? : BinaryOp → Option Symbol
  | .eq => some .eq
  | .ne => some .ne
  | .lt => some .lt
  | .gt => some .gt
  | .lte => some .le
  | .gte => some .ge
  | .and => some .and
  | .or => some .or
  | .add => some .plus
  | .subtract => some .minus
  | .multiply => some .star
  | .divide => some .slash
  | .modulo => some .percent
  | .numericEq | .numericNe | .numericAdd | .comma => none

def Expr.isRegular : Expr → Bool
  | .string value => isQuotable value
  | .decimal digits => isDecimalWord digits
  | .hex digits => isHexWord digits
  | .lookup _ | .apply _ _ => true
  | .sequence items => 2 ≤ items.length
  | .unary op operand => op ≠ .negative || operand.isNumber
  | .binary op _ _ => op.symbol?.isSome
  | .noop => false

/-! ### Commands -/

namespace Command

/-- Can the command stand beside others? -/
def isSibling : Command → Bool
  | .multiple _ | .noop => false
  | _ => true

def isData : Command → Bool
  | .data _ => true
  | _ => false

/-- Is there literal text right after literal text? -/
def hasAdjacentData : List Command → Bool
  | c :: d :: cs => (c.isData && d.isData) || hasAdjacentData (d :: cs)
  | _ => false

def isRegular : Command → Bool
  | .multiple commands =>
    2 ≤ commands.length && commands.all isSibling && !hasAdjacentData commands
  | .data text => !text.isEmpty && !text.occurs opensTag
  | .comment _ text => text.all fun t => !t.isEmpty && !t.occurs closesTag
  | .contentType _ value => isQuotable value
  | .define _ called _ _ | .call _ called _ => called.words.all isPlainWord
  | _ => true

end Command

/-! ### Nodes and trees -/

namespace Node

/-- Could a template hold this node, given that it can hold those below it? -/
def isRegular : Node → Bool
  | command c => c.isRegular
  | expr e => e.isRegular
  | path v => v.isRegular

/-- Could a template hold this tree? -/
def isCanonical (x : Node) : Bool := x.walk.all isRegular

end Node
end ClearSilver
