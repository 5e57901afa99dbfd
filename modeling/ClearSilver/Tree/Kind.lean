/-
# Kinds of nodes and their tags

A kind is the constructor of a node together with its form, and within its
family each kind has a tag of its own. Trees written as data and the compact
rendering of a tree name nodes by their tags.

Key definitions: `Variable.Kind`, `Expr.Kind`, `Command.Kind`, `Node.Kind`,
`Node.kind`.
Key theorems: `Variable.Kind.ofTag?_tag`, `Expr.Kind.ofTag?_tag`,
`Command.Kind.ofTag?_tag`.
-/
import ClearSilver.Tree.Basic

namespace ClearSilver

/-! ### Variables -/

namespace Variable

inductive Kind
  | name | decNumber | hexNumber | descend | expand
deriving DecidableEq

def kind : Variable → Kind
  | .name _ => .name
  | .decNumber _ => .decNumber
  | .hexNumber _ => .hexNumber
  | .descend _ _ => .descend
  | .expand _ _ => .expand

namespace Kind

def tag : Kind → Text
  | name => "name"
  | decNumber => "dec_number"
  | hexNumber => "hex_number"
  | descend => "descend"
  | expand => "expand"

def all : List Kind := [name, decNumber, hexNumber, descend, expand]

/-- The kind with a tag. -/
def ofTag? (t : Text) : Option Kind := all.find? (·.tag = t)

theorem ofTag?_tag (k : Kind) : ofTag? k.tag = some k := by cases k <;> decide

end Kind
end Variable

/-! ### Expressions -/

def UnaryOp.tag : UnaryOp → Text
  | .numeric => "numeric"
  | .negative => "negative"
  | .not => "not"
  | .exist => "exists"

def BinaryOp.tag : BinaryOp → Text
  | .eq => "eq"
  | .numericEq => "numeric_eq"
  | .ne => "ne"
  | .numericNe => "numeric_ne"
  | .lt => "lt"
  | .gt => "gt"
  | .lte => "lte"
  | .gte => "gte"
  | .and => "and"
  | .or => "or"
  | .add => "add"
  | .numericAdd => "numeric_add"
  | .subtract => "subtract"
  | .multiply => "multiply"
  | .divide => "divide"
  | .modulo => "modulo"
  | .comma => "comma"

namespace Expr

inductive Kind
  | string | decimal | hex | lookup | apply | sequence
  | unary (op : UnaryOp)
  | binary (op : BinaryOp)
  | noop
deriving DecidableEq

def kind : Expr → Kind
  | .string _ => .string
  | .decimal _ => .decimal
  | .hex _ => .hex
  | .lookup _ => .lookup
  | .apply _ _ => .apply
  | .sequence _ => .sequence
  | .unary op _ => .unary op
  | .binary op _ _ => .binary op
  | .noop => .noop

namespace Kind

def tag : Kind → Text
  | string => "string"
  | decimal => "decimal"
  | hex => "hex"
  | lookup => "variable"
  | apply => "function"
  | sequence => "sequence"
  | unary op => op.tag
  | binary op => op.tag
  | noop => "noop"

def all : List Kind :=
  [string, decimal, hex, lookup, apply, sequence, unary .numeric, unary .negative, unary .not,
   unary .exist, binary .eq, binary .numericEq, binary .ne, binary .numericNe, binary .lt,
   binary .gt, binary .lte, binary .gte, binary .and, binary .or, binary .add, binary .numericAdd,
   binary .subtract, binary .multiply, binary .divide, binary .modulo, binary .comma, noop]

/-- The kind with a tag. -/
def ofTag? (t : Text) : Option Kind := all.find? (·.tag = t)

theorem ofTag?_tag (k : Kind) : ofTag? k.tag = some k := by
  cases k with
  | unary op => cases op <;> decide
  | binary op => cases op <;> decide
  | _ => decide

end Kind
end Expr

/-! ### Commands -/

def OutputForm.tag : OutputForm → Text
  | .var => "var"
  | .lvar => "lvar"
  | .evar => "evar"
  | .uvar => "uvar"

def WrapForm.tag : WrapForm → Text
  | .escape => "escape"
  | .autoescape => "autoescape"
  | .alt => "alt"

def BindForm.tag : BindForm → Text
  | .scope => "with"
  | .each => "each"

def IncludeForm.tag : IncludeForm → Text
  | .soft => "include"
  | .hard => "hard_include"
  | .lsoft => "linclude"
  | .lhard => "hard_linclude"

namespace Bounds

/-- How many bounds there are. -/
inductive Kind
  | upTo | range | stepped
deriving DecidableEq

def kind : Bounds → Kind
  | .upTo _ => .upTo
  | .range _ _ => .range
  | .stepped _ _ _ => .stepped

def Kind.tag : Kind → Text
  | upTo => "loop_to"
  | range => "loop"
  | stepped => "loop_inc"

end Bounds

namespace Command

inductive Kind
  | multiple | data | comment
  | output (form : OutputForm)
  | assign | name
  | wrap (form : WrapForm)
  | bind (form : BindForm)
  | loop (bounds : Bounds.Kind)
  | define | call | ifElse
  | inclusion (form : IncludeForm)
  | contentType | inline | noop
deriving DecidableEq

def kind : Command → Kind
  | .multiple _ => .multiple
  | .data _ => .data
  | .comment _ _ => .comment
  | .output form _ _ => .output form
  | .assign _ _ _ => .assign
  | .name _ _ => .name
  | .wrap form _ _ _ => .wrap form
  | .bind form _ _ _ _ => .bind form
  | .loop _ _ bounds _ => .loop bounds.kind
  | .define _ _ _ _ => .define
  | .call _ _ _ => .call
  | .ifElse _ _ _ _ => .ifElse
  | .inclusion form _ _ => .inclusion form
  | .contentType _ _ => .contentType
  | .inline _ _ => .inline
  | .noop => .noop

namespace Kind

def tag : Kind → Text
  | multiple => "multiple"
  | data => "data"
  | comment => "comment"
  | output form => form.tag
  | assign => "set"
  | name => "name"
  | wrap form => form.tag
  | bind form => form.tag
  | loop bounds => bounds.tag
  | define => "def"
  | call => "call"
  | ifElse => "if"
  | inclusion form => form.tag
  | contentType => "content_type"
  | inline => "inline"
  | noop => "noop"

def all : List Kind :=
  [multiple, data, comment, output .var, output .lvar, output .evar, output .uvar, assign, name,
   wrap .escape, wrap .autoescape, bind .scope, loop .upTo, loop .range, loop .stepped, bind .each,
   define, call, ifElse, wrap .alt, inclusion .soft, inclusion .hard, inclusion .lsoft,
   inclusion .lhard, contentType, inline, noop]

/-- The kind with a tag. -/
def ofTag? (t : Text) : Option Kind := all.find? (·.tag = t)

theorem ofTag?_tag (k : Kind) : ofTag? k.tag = some k := by
  cases k with
  | output form => cases form <;> decide
  | wrap form => cases form <;> decide
  | bind form => cases form <;> decide
  | loop bounds => cases bounds <;> decide
  | inclusion form => cases form <;> decide
  | _ => decide

end Kind
end Command

/-! ### Nodes -/

namespace Node

inductive Kind
  | command (k : Command.Kind)
  | expr (k : Expr.Kind)
  | path (k : Variable.Kind)
deriving DecidableEq

def kind : Node → Kind
  | .command c => .command c.kind
  | .expr e => .expr e.kind
  | .path v => .path v.kind

/-- The tag within the family. -/
def Kind.tag : Kind → Text
  | command k => k.tag
  | expr k => k.tag
  | path k => k.tag

end Node
end ClearSilver
