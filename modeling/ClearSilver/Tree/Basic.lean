/-
# Template trees

A template is a tree of three families of nodes: commands are the tags and
the literal text between them, expressions compute values, and variables are
paths into the data. Commands that differ only in their keyword are one
constructor with a form.

A macro has a name of at least one word, and a loop has one, two or three
bounds, by construction. A position may hold any integers, since a tree can
also be read from data; the positions the parser gives are those of the `<`
of a tag.

Key definitions: `Position`, `MacroName`, `Variable`, `Expr`, `Bounds`,
`Command`, `Node`.
-/
import ClearSilver.Text.Location

namespace ClearSilver

/-- Where a tag begins in its source. -/
structure Position where
  offset : Int
  line : Int
  column : Int
deriving DecidableEq

/-- The position of an offset, where the lines begin at `starts`. -/
def Position.among (starts : List Nat) (offset : Nat) : Position :=
  let place := Location.among starts offset
  ⟨offset, place.line, place.column⟩

/-- The position of an offset of a source. -/
def Position.of (source : Text) (offset : Nat) : Position := .among (lineStarts source) offset

/-- A dotted name of one or more words. -/
structure MacroName where
  first : Text
  more : List Text
deriving DecidableEq

/-- The words of a macro name in order. -/
def MacroName.words (n : MacroName) : List Text := n.first :: n.more

/-! ### Variables and expressions -/

/-- The operators of one operand. -/
inductive UnaryOp
  /-- `#a`: as a number. -/
  | numeric
  /-- `-1`: a number with its sign changed. -/
  | negative
  /-- `!a` -/
  | not
  /-- `?a`: is it set? -/
  | exist
deriving DecidableEq

/-- The operators of two operands. -/
inductive BinaryOp
  | eq | numericEq | ne | numericNe | lt | gt | lte | gte | and | or | add | numericAdd | subtract
  | multiply | divide | modulo | comma
deriving DecidableEq

mutual

/-- A path into the data. -/
inductive Variable
  /-- A word. -/
  | name (word : Text)
  /-- A number in decimal digits, such as the `2` of `a.2`. -/
  | decNumber (digits : Text)
  /-- A number in hexadecimal digits after `0x`. -/
  | hexNumber (digits : Text)
  /-- `parent.child` -/
  | descend (parent child : Variable)
  /-- `parent[index]` -/
  | expand (parent : Variable) (index : Expr)

/-- An expression. -/
inductive Expr
  /-- A string, without its quotes. -/
  | string (value : Text)
  /-- A number in decimal digits. -/
  | decimal (digits : Text)
  /-- A number in hexadecimal digits, with its `0x`. -/
  | hex (digits : Text)
  /-- The value of a variable. -/
  | lookup (path : Variable)
  /-- A call of a function. -/
  | apply (callee : Variable) (arguments : List Expr)
  /-- Expressions between parentheses. -/
  | sequence (items : List Expr)
  | unary (op : UnaryOp) (operand : Expr)
  | binary (op : BinaryOp) (left right : Expr)
  | noop

end

/-! ### Commands -/

/-- The ways to write out a value. -/
inductive OutputForm
  | var | lvar | evar | uvar
deriving DecidableEq

/-- The blocks headed by an expression. -/
inductive WrapForm
  | escape | autoescape | alt
deriving DecidableEq

/-- The blocks that bind a variable to the value of an expression. -/
inductive BindForm
  | scope | each
deriving DecidableEq

/-- The ways to include a template: `include` and `linclude`, each with a soft
or a hard delimiter. -/
inductive IncludeForm
  | soft | hard | lsoft | lhard
deriving DecidableEq

/-- The bounds of a loop. -/
inductive Bounds
  /-- `i = stop` -/
  | upTo (stop : Expr)
  /-- `i = start, stop` -/
  | range (start stop : Expr)
  /-- `i = start, stop, step` -/
  | stepped (start stop step : Expr)

/-- A command: a tag with all it encloses, or literal text. -/
inductive Command
  /-- Commands one after the other. -/
  | multiple (commands : List Command)
  /-- Literal text. -/
  | data (text : Text)
  | comment (position : Position) (text : Option Text)
  | output (form : OutputForm) (position : Position) (expression : Expr)
  /-- `set:variable = expression` -/
  | assign (position : Position) (target : Variable) (expression : Expr)
  /-- `name:variable` -/
  | name (position : Position) (target : Variable)
  | wrap (form : WrapForm) (position : Position) (expression : Expr) (body : Command)
  | bind (form : BindForm) (position : Position) (target : Variable) (expression : Expr)
      (body : Command)
  | loop (position : Position) (target : Variable) (bounds : Bounds) (body : Command)
  /-- The definition of a macro. -/
  | define (position : Position) (name : MacroName) (parameters : List Variable) (body : Command)
  /-- The call of a macro. -/
  | call (position : Position) (name : MacroName) (arguments : List Expr)
  /-- `otherwise` is the next branch as another `ifElse`, the body of the
  `else` branch, or nothing. -/
  | ifElse (position : Position) (condition : Expr) (block otherwise : Command)
  | inclusion (form : IncludeForm) (position : Position) (target : Expr)
  | contentType (position : Position) (value : Text)
  | inline (position : Position) (body : Command)
  /-- No command at all. -/
  | noop

/-- The position of a tag. -/
def Command.position? : Command → Option Position
  | .multiple _ | .data _ | .noop => none
  | .comment p _ | .output _ p _ | .assign p _ _ | .name p _ | .wrap _ p _ _ | .bind _ p _ _ _
  | .loop p _ _ _ | .define p _ _ _ | .call p _ _ | .ifElse p _ _ _ | .inclusion _ p _
  | .contentType p _ | .inline p _ => some p

/-! ### Nodes -/

/-- A node of a tree, of any family. -/
inductive Node
  | command (c : Command)
  | expr (e : Expr)
  | path (v : Variable)

end ClearSilver
