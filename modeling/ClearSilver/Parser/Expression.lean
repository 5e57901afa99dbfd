/-
# The grammar of expressions

The binary operators stand on six levels, from `||` to `*`, and operators of
one level group from the left: a level is a chain of the next tighter one,
and the tightest is a chain of values. A value is a variable, a call, a
string, a number, a value after `#`, `!` or `?`, or expressions between
parentheses.

A value may hold whole expressions, so its script takes a budget. Every use
of the budget follows a token that was taken, so a budget greater than the
number of tokens that are left is never spent.

Key definitions: `BinaryLevel`, `levels`, `Script.chain`, `Script.variablePath`,
`Script.number`, `Script.value`, `Script.expression`.
-/
import ClearSilver.Script
import ClearSilver.Tree.Basic

namespace ClearSilver

/-! ### Precedence -/

/-- The operators of one level with what they build. -/
abbrev BinaryLevel := List (Symbol × BinaryOp)

/-- The levels of the binary operators, the loosest first. -/
def levels : List BinaryLevel :=
  [[(.or, .or)],
   [(.and, .and)],
   [(.eq, .eq), (.ne, .ne)],
   [(.lt, .lt), (.gt, .gt), (.le, .lte), (.ge, .gte)],
   [(.plus, .add), (.minus, .subtract)],
   [(.star, .multiply), (.slash, .divide), (.percent, .modulo)]]

/-- The operator of a level that a token is. -/
def BinaryLevel.operator? (level : BinaryLevel) (kind : Token.Kind) : Option BinaryOp :=
  (level.find? (kind = .symbol ·.1)).map (·.2)

/-- A string or a quoted value without its quotes. -/
def unquoted (t : Text) : Text := t.tail.dropLast

namespace Script

/-! ### Lists and chains -/

/-- The items after a comma, as many as there are. -/
def itemsAfterComma {α : Type} (item : Script α) : (budget : Nat) → Script (List α)
  | 0 => fail .exhausted
  | budget + 1 => do
    match ← accept [.symbol .comma] with
    | none => return []
    | some _ =>
      let a ← item
      let rest ← itemsAfterComma item budget
      return a :: rest

/-- One or more items with commas between them. -/
def items {α : Type} (item : Script α) (budget : Nat) : Script (List α) := do
  let a ← item
  let rest ← itemsAfterComma item budget
  return a :: rest

/-- Items with commas between them up to the closing parenthesis, which may
come at once. -/
def parenthesized {α : Type} (item : Script α) (budget : Nat) : Script (List α) := do
  let found ← if ← at? [.symbol .rightParen] then pure [] else items item budget
  let _ ← expect (.symbol .rightParen) (.symbol .rightParen)
  return found

/-- The operators of a level and their right operands, applied from the left. -/
def chainFrom (level : BinaryLevel) (operand : Script Expr) :
    (budget : Nat) → Expr → Script Expr
  | 0, _ => fail .exhausted
  | budget + 1, left => do
    let tok ← peek 0
    match level.operator? tok.kind with
    | none => return left
    | some op =>
      let _ ← advance
      let right ← operand
      chainFrom level operand budget (.binary op left right)

/-- Operands with operators of one level between them. -/
def chain (level : BinaryLevel) (operand : Script Expr) (budget : Nat) : Script Expr := do
  let first ← operand
  chainFrom level operand budget first

/-- Chains of chains, down to the values. -/
def chained (value : Script Expr) (budget : Nat) : List BinaryLevel → Script Expr
  | [] => value
  | level :: tighter => chain level (chained value budget tighter) budget

/-! ### Variables -/

/-- A number or a word as a step of a path. -/
def pathStep (expected : Expectation) : Script Variable := do
  match ← accept [.decimal] with
  | some tok => return .decNumber tok.text
  | none =>
    match ← accept [.hex] with
    | some tok => return .hexNumber tok.text
    | none =>
      let word ← expect .word expected
      return .name word.text

/-- The beginning of a path: a word, or a word or a number after `$`. -/
def pathStart : Script Variable := do
  match ← accept [.symbol .dollar] with
  | some _ => pathStep .variableName
  | none =>
    let word ← expect .word .variableName
    return .name word.text

/-- The steps of a path from `parent` on. -/
def pathFrom (index : Script Expr) : (budget : Nat) → (parent : Variable) → Script Variable
  | 0, _ => fail .exhausted
  | budget + 1, parent => do
    match ← accept [.symbol .dot] with
    | some _ =>
      let child ← pathStep .nameAfterDot
      pathFrom index budget (.descend parent child)
    | none =>
      match ← accept [.symbol .leftBracket] with
      | some _ =>
        let found ← index
        let _ ← expect (.symbol .rightBracket) (.symbol .rightBracket)
        pathFrom index budget (.expand parent found)
      | none => return parent

/-- A whole path, whose brackets hold what `index` reads. -/
def path (index : Script Expr) (budget : Nat) : Script Variable := do
  let first ← pathStart
  pathFrom index budget first

/-! ### Values -/

/-- A number with an optional sign; a minus is kept, a plus is not. -/
def number : Script Expr := do
  let sign ← accept [.symbol .plus, .symbol .minus]
  let signed (e : Expr) : Expr :=
    if sign.any (·.kind = .symbol .minus) then .unary .negative e else e
  match ← accept [.decimal] with
  | some tok => return signed (.decimal tok.text)
  | none =>
    match ← accept [.hex] with
    | some tok => return signed (.hex tok.text)
    | none => reject .number (← peek 0)

/-- Expressions between parentheses: one stands for itself. -/
def grouped : List Expr → Expr
  | [e] => e
  | es => .sequence es

/-- A value. -/
def value : (budget : Nat) → Script Expr
  | 0 => fail .exhausted
  | budget + 1 => do
    let tok ← peek 0
    let nested := chained (value budget) budget levels
    match tok.kind with
    | .word | .symbol .dollar =>
      let called ← path nested budget
      match ← accept [.symbol .leftParen] with
      | some _ => return .apply called (← parenthesized nested budget)
      | none => return .lookup called
    | .string =>
      let _ ← advance
      return .string (unquoted tok.text)
    | .decimal | .hex | .symbol .plus | .symbol .minus => number
    | .symbol .hash =>
      let _ ← advance
      return .unary .numeric (← value budget)
    | .symbol .bang =>
      let _ ← advance
      return .unary .not (← value budget)
    | .symbol .question =>
      let _ ← advance
      return .unary .exist (← value budget)
    | .symbol .leftParen =>
      let _ ← advance
      let found ← items nested budget
      let _ ← expect (.symbol .rightParen) (.symbol .rightParen)
      return grouped found
    | _ => reject .expression tok

/-- An expression of the levels from `level` on, the loosest being 0. -/
def expressionFrom (level budget : Nat) : Script Expr :=
  chained (value budget) budget (levels.drop level)

/-- An expression. -/
def expression (budget : Nat) : Script Expr := chained (value budget) budget levels

/-- A variable. -/
def variablePath (budget : Nat) : Script Variable := path (expression budget) budget

end Script
end ClearSilver
