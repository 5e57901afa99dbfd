/-
# The compact rendering of a tree

A node is its tag, with its fields in parentheses if it has any; positions
are left out, and so is the text of an empty comment. Literal text, comments
and strings are quoted, words and numbers are not, a macro name is joined by
dots, and a list stands in brackets. The items of a `multiple` or a
`sequence` stand in its parentheses without brackets.

Key definitions: `Variable.dump`, `Expr.dump`, `Command.dump`, `Node.dump`.
-/
import ClearSilver.Tree.Kind
import ClearSilver.Text.JsonString

namespace ClearSilver

/-- A tag with its arguments. -/
def dumped (tag : Text) (arguments : List Text) : Text :=
  if arguments.isEmpty then tag else tag ++ "(" ++ Text.joined ", " arguments ++ ")"

/-- A tag with the items of its list, which may be none. -/
def dumpedItems (tag : Text) (items : List Text) : Text :=
  tag ++ "(" ++ Text.joined ", " items ++ ")"

/-- A list in brackets. -/
def dumpedList (items : List Text) : Text := "[" ++ Text.joined ", " items ++ "]"

/-- Text in quotes, in ASCII. -/
def dumpedText (t : Text) : Text := Text.jsonQuoted true t

mutual

def Variable.dump : Variable → Text
  | .name word => dumped "name" [word]
  | .decNumber digits => dumped "dec_number" [digits]
  | .hexNumber digits => dumped "hex_number" [digits]
  | .descend parent child => dumped "descend" [parent.dump, child.dump]
  | .expand parent index => dumped "expand" [parent.dump, index.dump]

def Expr.dump : Expr → Text
  | .string value => dumped "string" [dumpedText value]
  | .decimal digits => dumped "decimal" [digits]
  | .hex digits => dumped "hex" [digits]
  | .lookup path => dumped "variable" [path.dump]
  | .apply callee arguments => dumped "function" [callee.dump, dumpedList (Expr.dumpAll arguments)]
  | .sequence items => dumpedItems "sequence" (Expr.dumpAll items)
  | .unary op operand => dumped op.tag [operand.dump]
  | .binary op left right => dumped op.tag [left.dump, right.dump]
  | .noop => dumped "noop" []

def Expr.dumpAll : List Expr → List Text
  | [] => []
  | e :: es => e.dump :: Expr.dumpAll es

end

def Bounds.dumpAll : Bounds → List Text
  | .upTo stop => [stop.dump]
  | .range start stop => [start.dump, stop.dump]
  | .stepped start stop step => [start.dump, stop.dump, step.dump]

/-- The words joined by dots. -/
def MacroName.dump (n : MacroName) : Text := Text.joined "." n.words

mutual

def Command.dump : Command → Text
  | .multiple commands => dumpedItems "multiple" (Command.dumpAll commands)
  | .data text => dumped "data" [dumpedText text]
  | .comment _ text => dumped "comment" (text.toList.map dumpedText)
  | .output form _ expression => dumped form.tag [expression.dump]
  | .assign _ target expression => dumped "set" [target.dump, expression.dump]
  | .name _ target => dumped "name" [target.dump]
  | .wrap form _ expression body => dumped form.tag [expression.dump, body.dump]
  | .bind form _ target expression body =>
    dumped form.tag [target.dump, expression.dump, body.dump]
  | .loop _ target bounds body =>
    dumped bounds.kind.tag (target.dump :: bounds.dumpAll ++ [body.dump])
  | .define _ called parameters body =>
    dumped "def" [called.dump, dumpedList (parameters.map Variable.dump), body.dump]
  | .call _ called arguments => dumped "call" [called.dump, dumpedList (Expr.dumpAll arguments)]
  | .ifElse _ condition block otherwise =>
    dumped "if" [condition.dump, block.dump, otherwise.dump]
  | .inclusion form _ target => dumped form.tag [target.dump]
  | .contentType _ value => dumped "content_type" [dumpedText value]
  | .inline _ body => dumped "inline" [body.dump]
  | .noop => dumped "noop" []

def Command.dumpAll : List Command → List Text
  | [] => []
  | c :: cs => c.dump :: Command.dumpAll cs

end

def Node.dump : Node → Text
  | command c => c.dump
  | expr e => e.dump
  | path v => v.dump

end ClearSilver
