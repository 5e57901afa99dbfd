/-
# The grammar

The template language as a grammar over kinds of tokens. A form is built from
kinds and phrases by sequence, choice and repetition, each phrase has a form,
and `Form.Derives` says which runs of kinds a form stands for.

Key definitions: `Form`, `Phrase`, `operators`, `Phrase.form`, `Form.Derives`,
`IsTemplate`.
-/
import ClearSilver.Token

namespace ClearSilver

/-- What the grammar has a name for. -/
inductive Phrase
  | template
  /-- What a template or a block holds. -/
  | commands
  | command
  /-- The close tag of a keyword's block. -/
  | close (k : Keyword)
  | macroName
  | path
  /-- A word or a number. -/
  | name
  /-- The binary operators from a level on, the loosest being 0. -/
  | level (n : Nat)
  | value
deriving DecidableEq

/-- A form of the grammar. -/
inductive Form
  | empty
  | token (kind : Token.Kind)
  | phrase (p : Phrase)
  | both (first second : Form)
  | either (left right : Form)
  /-- Any number of times. -/
  | many (f : Form)
deriving DecidableEq

namespace Form

/-- One form after the other. -/
def sequence : List Form → Form
  | [] => empty
  | [f] => f
  | f :: fs => both f (sequence fs)

/-- One of some forms. -/
def anyOf (first : Form) (others : List Form) : Form := others.foldl either first

/-- The form or nothing. -/
def optional (f : Form) : Form := either f empty

def keyword (k : Keyword) : Form := token (.keyword k)

def symbol (s : Symbol) : Form := token (.symbol s)

/-- One or more with commas between them. -/
def separated (f : Form) : Form := both f (many (both (symbol .comma) f))

/-- An expression. -/
def expression : Form := phrase (.level 0)

/-- `keyword: …` and the end of the tag. -/
def tag (k : Keyword) (arguments : List Form) : Form :=
  sequence (keyword k :: token .softDelimiter :: (arguments ++ [token .tagClose]))

/-- A tag with what it encloses and its close tag. -/
def block (k : Keyword) (head : Form) : Form :=
  sequence [head, phrase .commands, phrase (.close k)]

/-- `variable = expression` -/
def binding : List Form := [phrase .path, symbol .assign, expression]

end Form

open Form in
/-- The forms of a command after the `<?cs`. -/
def commandForms : List Form :=
  [tag .var [expression], tag .lvar [expression], tag .evar [expression], tag .uvar [expression],
   tag .set binding,
   tag .name [phrase .path],
   block .escape (tag .escape [expression]),
   block .autoescape (tag .autoescape [expression]),
   block .alt (tag .alt [expression]),
   block .withTag (tag .withTag binding),
   block .each (tag .each binding),
   block .loop (tag .loop
     (binding ++ [optional (sequence [symbol .comma, expression,
       optional (both (symbol .comma) expression)])])),
   block .defTag (tag .defTag
     [phrase .macroName, symbol .leftParen, optional (separated (phrase .path)),
      symbol .rightParen]),
   tag .call
     [phrase .macroName, symbol .leftParen, optional (separated expression), symbol .rightParen],
   sequence [either (keyword .includeTag) (keyword .linclude),
     either (token .softDelimiter) (token .hardDelimiter), expression, token .tagClose],
   tag .contentType [token .string],
   block .inline (both (keyword .inline) (token .tagClose)),
   sequence [tag .ifTag [expression], phrase .commands,
     many (sequence [token .tagOpen, tag .elseIf [expression], phrase .commands]),
     optional (sequence
       [token .tagOpen, keyword .elseTag, token .tagClose, phrase .commands]),
     phrase (.close .ifTag)]]

/-- The binary operators of each level, the loosest first. -/
def operators : List (Symbol × List Symbol) :=
  [(.or, []), (.and, []), (.eq, [.ne]), (.lt, [.gt, .le, .ge]), (.plus, [.minus]),
   (.star, [.slash, .percent])]

open Form in
/-- The form of a phrase. -/
def Phrase.form : Phrase → Form
  | template => both (phrase commands) (token .eof)
  | commands => many (either (token .data) (phrase command))
  | command =>
    both (token .tagOpen) (anyOf
      (sequence [token .commentStart, optional (token .comment), token .tagClose]) commandForms)
  | close k => sequence [token .tagOpen, symbol .slash, keyword k, token .tagClose]
  | macroName => both (token .word) (many (both (symbol .dot) (token .word)))
  | name => anyOf (token .word) [token .decimal, token .hex]
  | path =>
    both (either (token .word) (both (symbol .dollar) (phrase name)))
      (many (either (both (symbol .dot) (phrase name))
        (sequence [symbol .leftBracket, expression, symbol .rightBracket])))
  | level n =>
    match operators[n]? with
    | some (s, others) =>
      both (phrase (level (n + 1)))
        (many (both (anyOf (symbol s) (others.map symbol)) (phrase (level (n + 1)))))
    | none => phrase value
  | value =>
    anyOf
      (both (phrase path)
        (optional (sequence
          [symbol .leftParen, optional (separated expression), symbol .rightParen])))
      [token .string,
       both (optional (either (symbol .plus) (symbol .minus)))
         (either (token .decimal) (token .hex)),
       both (anyOf (symbol .hash) [symbol .bang, symbol .question]) (phrase value),
       sequence [symbol .leftParen, separated expression, symbol .rightParen]]

/-- The runs of kinds that a form stands for. -/
inductive Form.Derives : Form → List Token.Kind → Prop
  | empty : Derives .empty []
  | token (kind : Token.Kind) : Derives (.token kind) [kind]
  | phrase {p : Phrase} {ks : List Token.Kind} (h : Derives p.form ks) : Derives (.phrase p) ks
  | both {f g : Form} {ks ls : List Token.Kind} (hf : Derives f ks) (hg : Derives g ls) :
      Derives (.both f g) (ks ++ ls)
  | left {f g : Form} {ks : List Token.Kind} (h : Derives f ks) : Derives (.either f g) ks
  | right {f g : Form} {ks : List Token.Kind} (h : Derives g ks) : Derives (.either f g) ks
  | none {f : Form} : Derives (.many f) []
  | more {f : Form} {ks ls : List Token.Kind} (h : Derives f ks) (hs : Derives (.many f) ls) :
      Derives (.many f) (ks ++ ls)

/-- Is this run of kinds a sentence of the template grammar? -/
def IsTemplate (kinds : List Token.Kind) : Prop := Form.Derives (.phrase .template) kinds

end ClearSilver
