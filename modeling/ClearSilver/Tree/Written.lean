/-
# Writing a tree as a template

A canonical tree is written as a template that is read back as the same tree,
positions apart. Every operation of two operands stands in parentheses, every
`elif` is written as an `if` inside an `else`, and a tag ends with a blank
before its `?>`.

Key definitions: `Text.inQuotes`, `Variable.written`, `Expr.written`,
`Command.written`.
-/
import ClearSilver.Tree.Canonical

namespace ClearSilver

/-- A text between quotes of a sort that does not occur in it, if there is one. -/
def Text.inQuotes (t : Text) : Text :=
  let quote := if t.contains '"' then '\'' else '"'
  quote :: t ++ [quote]

def UnaryOp.symbol : UnaryOp → Symbol
  | .numeric => .hash
  | .negative => .minus
  | .not => .bang
  | .exist => .question

/-- The symbol of an operator, or nothing if none writes it. -/
def BinaryOp.sign (op : BinaryOp) : Text := (op.symbol?.map Symbol.text).getD []

mutual

def Variable.written : Variable → Text
  | .name word => word
  | .decNumber digits => '$' :: digits
  | .hexNumber digits => '$' :: digits
  | .descend parent child => parent.written ++ '.' :: child.writtenStep
  | .expand parent index => parent.written ++ '[' :: index.written ++ [']']

/-- A step after a dot. -/
def Variable.writtenStep : Variable → Text
  | .name word => word
  | .decNumber digits => digits
  | .hexNumber digits => digits
  | .descend _ _ | .expand _ _ => []

def Expr.written : Expr → Text
  | .string value => value.inQuotes
  | .decimal digits => digits
  | .hex digits => digits
  | .lookup path => path.written
  | .apply callee arguments =>
    callee.written ++ '(' :: Text.joined ", " (Expr.writtenAll arguments) ++ [')']
  | .sequence items => '(' :: Text.joined ", " (Expr.writtenAll items) ++ [')']
  | .unary op operand => op.symbol.text ++ operand.written
  | .binary op left right =>
    '(' :: left.written ++ ' ' :: op.sign ++ ' ' :: right.written ++ [')']
  | .noop => []

def Expr.writtenAll : List Expr → List Text
  | [] => []
  | e :: es => e.written :: Expr.writtenAll es

end

def Bounds.written : Bounds → Text
  | .upTo stop => stop.written
  | .range start stop => start.written ++ ", " ++ stop.written
  | .stepped start stop step => start.written ++ ", " ++ stop.written ++ ", " ++ step.written

def MacroName.written (n : MacroName) : Text := Text.joined "." n.words

/-! ### Tags -/

/-- The first spelling of a keyword. -/
def Keyword.text (k : Keyword) : Text := ((Keyword.spellings.find? (·.2 = k)).map (·.1)).getD []

def OutputForm.keyword : OutputForm → Keyword
  | .var => .var
  | .lvar => .lvar
  | .evar => .evar
  | .uvar => .uvar

def WrapForm.keyword : WrapForm → Keyword
  | .escape => .escape
  | .autoescape => .autoescape
  | .alt => .alt

def BindForm.keyword : BindForm → Keyword
  | .scope => .withTag
  | .each => .each

def IncludeForm.keyword : IncludeForm → Keyword
  | .soft | .hard => .includeTag
  | .lsoft | .lhard => .linclude

def IncludeForm.delimiter : IncludeForm → Char
  | .soft | .lsoft => ':'
  | .hard | .lhard => '!'

/-- A tag that holds this text. -/
def tagWritten (inside : Text) : Text := "<?cs " ++ inside ++ " ?>"

/-- `keyword:arguments` as a tag. -/
def headWritten (k : Keyword) (arguments : Text) : Text := tagWritten (k.text ++ ':' :: arguments)

/-- The close tag of a keyword's block. -/
def closeWritten (k : Keyword) : Text := tagWritten ('/' :: k.text)

/-- `variable = expression` -/
def bindingWritten (target : Variable) (value : Text) : Text := target.written ++ " = " ++ value

/-- A macro name with its list in parentheses. -/
def macroWritten (called : MacroName) (items : List Text) : Text :=
  called.written ++ '(' :: Text.joined ", " items ++ [')']

mutual

def Command.written : Command → Text
  | .multiple commands => Command.writtenAll commands
  | .data text => text
  | .comment _ text => "<?cs #" ++ text.getD [] ++ "?>"
  | .output form _ expression => headWritten form.keyword expression.written
  | .assign _ target expression => headWritten .set (bindingWritten target expression.written)
  | .name _ target => headWritten .name target.written
  | .wrap form _ expression body =>
    headWritten form.keyword expression.written ++ body.written ++ closeWritten form.keyword
  | .bind form _ target expression body =>
    headWritten form.keyword (bindingWritten target expression.written) ++ body.written ++
      closeWritten form.keyword
  | .loop _ target bounds body =>
    headWritten .loop (bindingWritten target bounds.written) ++ body.written ++ closeWritten .loop
  | .define _ called parameters body =>
    headWritten .defTag (macroWritten called (parameters.map Variable.written)) ++ body.written ++
      closeWritten .defTag
  | .call _ called arguments => headWritten .call (macroWritten called (Expr.writtenAll arguments))
  | .ifElse _ condition block otherwise =>
    headWritten .ifTag condition.written ++ block.written ++ tagWritten Keyword.elseTag.text ++
      otherwise.written ++ closeWritten .ifTag
  | .inclusion form _ target =>
    tagWritten (form.keyword.text ++ form.delimiter :: target.written)
  | .contentType _ value => headWritten .contentType value.inQuotes
  | .inline _ body => tagWritten Keyword.inline.text ++ body.written ++ closeWritten .inline
  | .noop => []

/-- Sibling commands one after the other. -/
def Command.writtenAll : List Command → Text
  | [] => []
  | c :: cs => c.written ++ Command.writtenAll cs

end

end ClearSilver
