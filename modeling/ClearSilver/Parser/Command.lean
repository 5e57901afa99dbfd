/-
# The grammar of commands

A template is literal text and commands. A command is a tag, and for a block
the commands it encloses and its close tag. The commands of a template or of
a block go on up to the end of the input or to a tag that closes or continues
a block.

Positions come from `place`, which says where an offset is.

Key definitions: `endsBody`, `Script.command`, `Script.siblings`,
`Script.commands`, `Script.template`.
Key theorems: `Script.siblings_succ`.
-/
import ClearSilver.Parser.Expression
import ClearSilver.Tree.Build

namespace ClearSilver

/-- Does a tag that begins like this close or continue an enclosing block? -/
def endsBody : Token.Kind → Bool
  | .symbol .slash | .keyword .elseTag | .keyword .elseIf => true
  | _ => false

namespace Script

/-! ### Parts of a tag -/

/-- The delimiter after a keyword; is it the hard one? -/
def delimiter (keyword : Token) (allowHard : Bool) : Script Bool := do
  match ← accept [.softDelimiter] with
  | some _ => return false
  | none =>
    if allowHard then
      match ← accept [.hardDelimiter] with
      | some _ => return true
      | none => reject (.delimiterAfter keyword.text) (← peek 0)
    else reject (.delimiterAfter keyword.text) (← peek 0)

/-- The end of a tag. -/
def endTag : Script Unit := do
  let _ ← expect .tagClose .tagClose

/-- Is there a tag here that begins with this kind of token? -/
def tagAhead (kind : Token.Kind) : Script Bool := do
  if (← peek 0).kind = .tagOpen then return (← peek 1).kind = kind else return false

/-- The close tag of the block that `openTag` and `keyword` opened. -/
def closeBlock (openTag keyword : Token) : Script Unit := do
  if ← at? [.eof] then fail (.unclosed keyword openTag)
  else
    let _ ← expect .tagOpen .tagOpen
    let _ ← expect (.symbol .slash) (.closeOf keyword.text)
    let _ ← expect keyword.kind (.closeOf keyword.text)
    endTag

/-- What a block encloses, and its close tag. -/
def enclosed (body : Script (List Command)) (openTag keyword : Token) : Script Command := do
  let found ← body
  closeBlock openTag keyword
  return .ofList found

/-- A dotted name. -/
def macroWords : (budget : Nat) → Script (List Text)
  | 0 => fail .exhausted
  | budget + 1 => do
    match ← accept [.symbol .dot] with
    | none => return []
    | some _ =>
      let word ← expect .word .macroName
      let rest ← macroWords budget
      return word.text :: rest

/-- The name of a macro. -/
def macroName (budget : Nat) : Script MacroName := do
  let word ← expect .word .macroName
  let rest ← macroWords budget
  return ⟨word.text, rest⟩

/-- `variable =` -/
def target (budget : Nat) : Script Variable := do
  let found ← variablePath budget
  let _ ← expect (.symbol .assign) (.symbol .assign)
  return found

/-- The bounds of a loop: one, two or three expressions. -/
def bounds (budget : Nat) : Script Bounds := do
  let first ← expression budget
  match ← accept [.symbol .comma] with
  | none => return .upTo first
  | some _ =>
    let second ← expression budget
    match ← accept [.symbol .comma] with
    | none => return .range first second
    | some _ => return .stepped first second (← expression budget)

/-- The branches of an `if` tag from the one that `openTag` and `keyword` begin. -/
def branches (place : Nat → Position) (body : Script (List Command)) (condition : Script Expr) :
    (budget : Nat) → (openTag keyword : Token) → Script (List Branch)
  | 0, _, _ => fail .exhausted
  | budget + 1, openTag, keyword => do
    let _ ← delimiter keyword false
    let test ← condition
    endTag
    let block ← body
    let branch : Branch := ⟨place openTag.offset, test, .ofList block⟩
    if ← tagAhead (.keyword .elseIf) then
      let openTag' ← advance
      let keyword' ← advance
      let rest ← branches place body condition budget openTag' keyword'
      return branch :: rest
    else return [branch]

/-- The commands of an `else` tag, if there is one. -/
def elseBranch (body : Script (List Command)) : Script Command := do
  if ← tagAhead (.keyword .elseTag) then
    let _ ← advance
    let _ ← advance
    endTag
    return .ofList (← body)
  else return .noop

/-! ### Tags -/

/-- `keyword: expression` and the end of the tag. -/
def headedTag (budget : Nat) (keyword : Token) : Script Expr := do
  let _ ← delimiter keyword false
  let found ← expression budget
  endTag
  return found

/-- `keyword: variable = expression` and the end of the tag. -/
def bindingTag (budget : Nat) (keyword : Token) : Script (Variable × Expr) := do
  let _ ← delimiter keyword false
  let bound ← target budget
  let found ← expression budget
  endTag
  return (bound, found)

/-- The rest of the command that `openTag` and `keyword` begin, if the
keyword begins a command. -/
def tag? (place : Nat → Position) (body : Script (List Command)) (budget : Nat)
    (openTag keyword : Token) : Option (Script Command) :=
  let position := place openTag.offset
  let output (form : OutputForm) : Script Command := do
    return .output form position (← headedTag budget keyword)
  let wrap (form : WrapForm) : Script Command := do
    let found ← headedTag budget keyword
    return .wrap form position found (← enclosed body openTag keyword)
  let bind (form : BindForm) : Script Command := do
    let (bound, found) ← bindingTag budget keyword
    return .bind form position bound found (← enclosed body openTag keyword)
  let inclusion (whenSoft whenHard : IncludeForm) : Script Command := do
    let isHard ← delimiter keyword true
    let found ← expression budget
    endTag
    return .inclusion (if isHard then whenHard else whenSoft) position found
  match keyword.kind with
  | .commentStart => some do
    let text ← accept [.comment]
    endTag
    return .comment position (text.map (·.text))
  | .keyword .var => some (output .var)
  | .keyword .lvar => some (output .lvar)
  | .keyword .evar => some (output .evar)
  | .keyword .uvar => some (output .uvar)
  | .keyword .set => some do
    let (bound, found) ← bindingTag budget keyword
    return .assign position bound found
  | .keyword .name => some do
    let _ ← delimiter keyword false
    let found ← variablePath budget
    endTag
    return .name position found
  | .keyword .escape => some (wrap .escape)
  | .keyword .autoescape => some (wrap .autoescape)
  | .keyword .alt => some (wrap .alt)
  | .keyword .withTag => some (bind .scope)
  | .keyword .each => some (bind .each)
  | .keyword .loop => some do
    let _ ← delimiter keyword false
    let bound ← target budget
    let limits ← bounds budget
    endTag
    return .loop position bound limits (← enclosed body openTag keyword)
  | .keyword .defTag => some do
    let _ ← delimiter keyword false
    let called ← macroName budget
    let _ ← expect (.symbol .leftParen) (.symbol .leftParen)
    let parameters ← parenthesized (variablePath budget) budget
    endTag
    return .define position called parameters (← enclosed body openTag keyword)
  | .keyword .call => some do
    let _ ← delimiter keyword false
    let called ← macroName budget
    let _ ← expect (.symbol .leftParen) (.symbol .leftParen)
    let arguments ← parenthesized (expression budget) budget
    endTag
    return .call position called arguments
  | .keyword .ifTag => some do
    let found ← branches place body (expression budget) budget openTag keyword
    let otherwise ← elseBranch body
    closeBlock openTag keyword
    return Branch.chain found otherwise
  | .keyword .includeTag => some (inclusion .soft .hard)
  | .keyword .linclude => some (inclusion .lsoft .lhard)
  | .keyword .contentType => some do
    let _ ← delimiter keyword false
    let value ← expect .string .string
    endTag
    return .contentType position (unquoted value.text)
  | .keyword .inline => some do
    endTag
    return .inline position (← enclosed body openTag keyword)
  | _ => none

/-- A command, whose blocks hold what `body` reads. -/
def commandOver (place : Nat → Position) (body : Script (List Command)) (budget : Nat) :
    Script Command := do
  let openTag ← expect .tagOpen .tagOpen
  let keyword ← advance
  match tag? place body budget openTag keyword with
  | none => reject .commandKeyword keyword
  | some rest =>
    record (.tag keyword.text openTag.offset)
    rest

/-! ### Bodies -/

/-- The commands of a body, marked where they begin and end. -/
def marked (siblings : Script (List Command)) : Script (List Command) := do
  record .bodyStart
  let found ← siblings
  record .bodyEnd
  return found

/-- Literal text and commands beside each other, read after those of
`before`, the last of which comes first. -/
def siblingsAfter (place : Nat → Position) :
    (budget : Nat) → (before : List Command) → Script (List Command)
  | 0, _ => fail .exhausted
  | budget + 1, before => do
    match ← accept [.data] with
    | some tok => siblingsAfter place budget (.data tok.text :: before)
    | none =>
      if (← peek 0).kind = .tagOpen then
        if endsBody (← peek 1).kind then return before.reverse
        else
          let command ← commandOver place (marked (siblingsAfter place budget [])) budget
          siblingsAfter place budget (command :: before)
      else return before.reverse

/-- Literal text and commands beside each other. -/
def siblings (place : Nat → Position) (budget : Nat) : Script (List Command) :=
  siblingsAfter place budget []

/-- What was read before stands in front of what is read next. -/
theorem siblingsAfter_eq (place : Nat → Position) : ∀ (budget : Nat) (before : List Command),
    siblingsAfter place budget before =
      (siblings place budget).bind fun found => done (before.reverse ++ found)
  | 0, before => rfl
  | budget + 1, before => by
    have step : ∀ (c : Command), siblingsAfter place budget (c :: before) =
        (siblingsAfter place budget [c]).bind fun found => done (before.reverse ++ found) := by
      intro c
      rw [siblingsAfter_eq place budget (c :: before), siblingsAfter_eq place budget [c],
        bind_assoc]
      simp [bind]
    unfold siblings siblingsAfter
    simp only [Bind.bind, bind_assoc]
    congr 1
    funext found
    cases found with
    | some tok => exact step _
    | none =>
      simp only [bind_assoc]
      congr 1
      funext tok
      split
      · simp only [bind_assoc]
        congr 1
        funext tok'
        split
        · simp [pure, bind]
        · simp only [bind_assoc]
          congr 1
          funext c
          exact step c
      · simp [pure, bind]

/-- Siblings one by one: literal text or a command, then the others. -/
theorem siblings_succ (place : Nat → Position) (budget : Nat) :
    siblings place (budget + 1) = (do
      match ← accept [.data] with
      | some tok =>
        let rest ← siblings place budget
        return .data tok.text :: rest
      | none =>
        if (← peek 0).kind = .tagOpen then
          if endsBody (← peek 1).kind then return []
          else
            let command ← commandOver place (marked (siblings place budget)) budget
            let rest ← siblings place budget
            return command :: rest
        else return []) := by
  conv => lhs; unfold siblings siblingsAfter
  simp only [siblingsAfter_eq place budget (_ :: _)]
  rfl

/-- The commands of a template or of a block. -/
def commands (place : Nat → Position) (budget : Nat) : Script (List Command) :=
  marked (siblings place budget)

/-- A command. -/
def command (place : Nat → Position) (budget : Nat) : Script Command :=
  commandOver place (commands place budget) budget

/-- A whole template as one command. -/
def template (place : Nat → Position) (budget : Nat) : Script Command := do
  let found ← commands place budget
  if ← at? [.eof] then
    record (.finished found.length)
    return .ofList found
  else reject .commandOrEnd (← peek 1)

end Script
end ClearSilver
