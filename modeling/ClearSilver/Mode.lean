/-
# The four modes of reading

What stands at the head of a text depends on the mode. Each mode is a rule on
the text that is left: it says how many blanks to pass over and which lexeme
stands there (`Mode.scan`). The lexeme found may change the mode
(`Mode.step`):

* `content` is literal text up to the next `<?cs` that a blank follows;
* `command` is what stands between `<?cs` and the arguments of the tag;
* `arguments` is the expression language;
* `comment` is raw text up to `?>`.

Key definitions: `Mode`, `Scan`, `Mode.scan`, `Mode.step`.
-/
import ClearSilver.Token

namespace ClearSilver

/-- What the scanner is reading. -/
inductive Mode
  | content | command | arguments | comment
deriving DecidableEq

/-- What stands at the head of a text: a lexeme after some blanks, a
character that begins no lexeme, or nothing more. -/
inductive Scan
  | lexeme (skipped : Nat) (kind : Token.Kind) (text : Text)
  | stuck (skipped : Nat) (char : Char)
  | ended
deriving DecidableEq

/-! ### The marks of a tag -/

/-- Does a tag open here: `<?cs` with a blank after it? -/
def opensTag (t : Text) : Bool :=
  t.startsWith "<?cs" && (t.drop 4).head?.any isBlank

/-- Does `?>` stand here? -/
def closesTag (t : Text) : Bool := t.startsWith "?>"

/-! ### Words -/

/-- Is the word a run of digits? -/
def isDecimalWord (w : Text) : Bool := !w.isEmpty && w.all isDigit

/-- Is the word `0x` or `0X` with at least one hexadecimal digit after it? -/
def isHexWord : Text → Bool
  | '0' :: x :: d :: r => (x = 'x' || x = 'X') && isHexDigit d && r.all isHexDigit
  | _ => false

/-- The kind of a word among the arguments. -/
def wordKind (w : Text) : Token.Kind :=
  if isDecimalWord w then .decimal else if isHexWord w then .hex else .word

/-- The kind of a word in command position. -/
def commandWordKind (w : Text) : Token.Kind :=
  match Keyword.ofText? w with
  | some k => .keyword k
  | none => .word

/-! ### The rules of the modes -/

namespace Mode

/-- Outside the tags: a tag that opens, or text up to the next one. -/
def scanContent : Text → Scan
  | [] => .ended
  | c :: r =>
    if opensTag (c :: r) then
      .lexeme 0 .tagOpen ("<?cs" ++ ((c :: r).drop 4).takeWhile isBlank)
    else
      .lexeme 0 .data (c :: Text.upTo opensTag r)

/-- After `<?cs`: blanks belong to the mark that follows them, or are
themselves a delimiter. -/
def scanCommand (t : Text) : Scan :=
  let blanks := t.takeWhile isBlank
  let rest := t.dropWhile isBlank
  if closesTag rest then .lexeme 0 .tagClose (blanks ++ "?>")
  else match rest with
    | ':' :: r => .lexeme 0 .softDelimiter (blanks ++ ':' :: r.takeWhile isBlank)
    | '!' :: r => .lexeme 0 .hardDelimiter (blanks ++ '!' :: r.takeWhile isBlank)
    | rest =>
      if blanks ≠ [] then .lexeme 0 .softDelimiter blanks
      else match rest with
        | [] => .ended
        | '#' :: _ => .lexeme 0 .commentStart "#"
        | '/' :: _ => .lexeme 0 (.symbol .slash) "/"
        | c :: r =>
          if isLetter c then
            let word := (c :: r).takeWhile fun d => isWordChar d || d = '-'
            .lexeme 0 (commandWordKind word) word
          else .stuck 0 c

/-- Inside the arguments, past the blanks. -/
def scanArgument (skipped : Nat) : Text → Scan
  | [] => .ended
  | c :: r =>
    if closesTag (c :: r) then .lexeme skipped .tagClose "?>"
    else if c = '"' || c = '\'' then
      if r.contains c then .lexeme skipped .string (c :: r.takeWhile (· ≠ c) ++ [c])
      else .stuck skipped c
    else if isWordChar c then
      let word := (c :: r).takeWhile isWordChar
      .lexeme skipped (wordKind word) word
    else match Symbol.atStart? (c :: r) with
      | some s => .lexeme skipped (.symbol s) s.text
      | none => .stuck skipped c

/-- Inside a comment: its end, or text up to it. -/
def scanComment : Text → Scan
  | [] => .ended
  | c :: r =>
    if closesTag (c :: r) then .lexeme 0 .tagClose "?>"
    else .lexeme 0 .comment (c :: Text.upTo closesTag r)

/-- What a mode finds at the head of a text. -/
def scan : Mode → Text → Scan
  | content, t => scanContent t
  | command, t => scanCommand t
  | arguments, t => scanArgument (t.takeWhile isBlank).length (t.dropWhile isBlank)
  | comment, t => scanComment t

/-- The mode after a lexeme. -/
def step : Mode → Token.Kind → Mode
  | content, .tagOpen => command
  | command, .commentStart => comment
  | command, .softDelimiter => arguments
  | command, .hardDelimiter => arguments
  | command, .tagClose => content
  | arguments, .tagClose => content
  | comment, .tagClose => content
  | mode, _ => mode

/-- How a mode is called in messages. -/
def text : Mode → Text
  | content => "content"
  | command => "command"
  | arguments => "args"
  | comment => "comment"

end Mode

end ClearSilver
