/-
# Tokens

A token is a kind, its exact source text and the offset it begins at. The
kinds are literal text and comments, the command keywords, the operators and
punctuation of expressions, literals, words and the marks of a tag. A keyword
or symbol whose usual name Lean keeps for itself ends in `Tag`.

Key definitions: `Keyword`, `Keyword.ofText?`, `Symbol`, `Symbol.text`,
`Token.Kind`, `Token`.
-/
import ClearSilver.Text.Basic

namespace ClearSilver

/-! ### Keywords -/

/-- The command keywords. -/
inductive Keyword
  | var | lvar | evar | uvar | set | ifTag | elseIf | elseTag | withTag | escape | autoescape
  | loop | each | alt | name | defTag | call | includeTag | linclude | contentType | inline
deriving DecidableEq

namespace Keyword

/-- Every spelling of a keyword with the keyword it spells; `elseif` is
another spelling of `elif`. -/
def spellings : List (Text × Keyword) :=
  [("var", var), ("lvar", lvar), ("evar", evar), ("uvar", uvar), ("set", set), ("if", ifTag),
   ("elif", elseIf), ("elseif", elseIf), ("else", elseTag), ("with", withTag),
   ("escape", escape), ("autoescape", autoescape), ("loop", loop), ("each", each),
   ("alt", alt), ("name", name), ("def", defTag), ("call", call), ("include", includeTag),
   ("linclude", linclude), ("content-type", contentType), ("inline", inline)]

/-- The keyword a text spells. -/
def ofText? (t : Text) : Option Keyword := (spellings.find? (·.1 = t)).map (·.2)

end Keyword

/-! ### Operators and punctuation -/

/-- The operators and the punctuation of expressions. -/
inductive Symbol
  | eq | ne | le | ge | and | or | comma | bang | assign | lt | gt | hash | plus | minus | star
  | slash | percent | leftBracket | rightBracket | leftParen | rightParen | dot | dollar | question
deriving DecidableEq

namespace Symbol

/-- Every symbol, those of two characters first. -/
def all : List Symbol :=
  [eq, ne, le, ge, and, or, comma, bang, assign, lt, gt, hash, plus, minus, star, slash, percent,
   leftBracket, rightBracket, leftParen, rightParen, dot, dollar, question]

/-- How a symbol is written. -/
def text : Symbol → Text
  | eq => "=="
  | ne => "!="
  | le => "<="
  | ge => ">="
  | and => "&&"
  | or => "||"
  | comma => ","
  | bang => "!"
  | assign => "="
  | lt => "<"
  | gt => ">"
  | hash => "#"
  | plus => "+"
  | minus => "-"
  | star => "*"
  | slash => "/"
  | percent => "%"
  | leftBracket => "["
  | rightBracket => "]"
  | leftParen => "("
  | rightParen => ")"
  | dot => "."
  | dollar => "$"
  | question => "?"

/-- The first symbol of `all` that a text begins with: `==` is taken before
`=`, so it is the longest one. -/
def atStart? (t : Text) : Option Symbol := all.find? (t.startsWith ·.text)

theorem mem_all (s : Symbol) : s ∈ all := by cases s <;> decide

end Symbol

/-! ### Tokens -/

namespace Token

/-- What a token is. -/
inductive Kind
  /-- Literal text outside the tags. -/
  | data
  /-- The text of a comment. -/
  | comment
  /-- A command keyword. -/
  | keyword (k : Keyword)
  /-- An operator, a punctuation mark or the `/` of a close tag. -/
  | symbol (s : Symbol)
  /-- A quoted string with its quotes. -/
  | string
  /-- A run of digits. -/
  | decimal
  /-- `0x` or `0X` and a run of hexadecimal digits. -/
  | hex
  /-- Any other word. -/
  | word
  /-- `<?cs` and the blanks after it. -/
  | tagOpen
  /-- The `?>` that ends a tag. -/
  | tagClose
  /-- The `#` that begins a comment. -/
  | commentStart
  /-- The `:` or the blanks between a keyword and its arguments. -/
  | softDelimiter
  /-- The `!` between a keyword and its arguments. -/
  | hardDelimiter
  /-- The end of the input. -/
  | eof
deriving DecidableEq

end Token

/-- A token: its kind, its exact source text, the offset of its first character. -/
structure Token where
  kind : Token.Kind
  text : Text
  offset : Nat
deriving DecidableEq

/-- The token at the end of an input of `length` characters. -/
def Token.atEnd (length : Nat) : Token := ⟨.eof, [], length⟩

end ClearSilver
