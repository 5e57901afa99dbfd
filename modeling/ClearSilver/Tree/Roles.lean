/-
# The roles of a value in a tree

Each value of a JSON text is read in every role it could have in a tree: as
a command, an expression, a variable, a list of these, a position, a name, a
text. The roles of a value are put together from the roles of its parts, and
only those that the fields of a node ask for matter in the end.

A node is an object whose tag names a kind of its family. Its fields are read
in their order, keys that are not fields are passed over, and the text of a
comment and the arguments of a call or a definition may be left out.

Key definitions: `Roles`, `Members.tagged`, `Roles.ofScalar`, `Roles.ofItems`,
`Roles.ofMembers`, `Json.roles`.
-/
import ClearSilver.Json.Scalar
import ClearSilver.Tree.Kind

namespace ClearSilver

/-- What a value is in each role. -/
structure Roles where
  /-- The text, if the value is one. -/
  tag : Option Text
  text : Reading Text
  optionalText : Reading (Option Text)
  integer : Reading Int
  position : Reading Position
  name : Reading MacroName
  path : Reading Variable
  paths : Reading (List Variable)
  expr : Reading Expr
  exprs : Reading (List Expr)
  command : Reading Command
  commands : Reading (List Command)

/-- The members of an object with their roles. -/
abbrev Members := List (Text × Roles)

namespace Members

/-- The member under a key in a role. -/
def field {α : Type} (ms : Members) (key : Text) (role : Roles → Reading α) : Reading α :=
  Reading.beneath (.key key) <|
    match Json.member? key ms with
    | none => .issue .missing
    | some r => role r

/-- The member under a key in a role, or a default if there is none. -/
def fieldOr {α : Type} (ms : Members) (key : Text) (default : α) (role : Roles → Reading α) :
    Reading α :=
  match Json.member? key ms with
  | none => .ok default
  | some r => (role r).beneath (.key key)

def position (ms : Members) : Reading Position :=
  Position.mk <$> ms.field "offset" (·.integer) <*> ms.field "line" (·.integer) <*>
    ms.field "column" (·.integer)

/-- A variable of a kind. -/
def path (ms : Members) : Variable.Kind → Reading Variable
  | .name => .name <$> ms.field "word" (·.text)
  | .decNumber => .decNumber <$> ms.field "value" (·.text)
  | .hexNumber => .hexNumber <$> ms.field "value" (·.text)
  | .descend => .descend <$> ms.field "parent" (·.path) <*> ms.field "child" (·.path)
  | .expand => .expand <$> ms.field "parent" (·.path) <*> ms.field "index" (·.expr)

/-- An expression of a kind. -/
def expr (ms : Members) : Expr.Kind → Reading Expr
  | .string => .string <$> ms.field "value" (·.text)
  | .decimal => .decimal <$> ms.field "value" (·.text)
  | .hex => .hex <$> ms.field "value" (·.text)
  | .lookup => .lookup <$> ms.field "variable" (·.path)
  | .apply => .apply <$> ms.field "callee" (·.path) <*> ms.fieldOr "arguments" [] (·.exprs)
  | .sequence => .sequence <$> ms.field "items" (·.exprs)
  | .unary op => .unary op <$> ms.field "operand" (·.expr)
  | .binary op => .binary op <$> ms.field "left" (·.expr) <*> ms.field "right" (·.expr)
  | .noop => .ok .noop

/-- The bounds of a loop. -/
def bounds (ms : Members) : Bounds.Kind → Reading Bounds
  | .upTo => .upTo <$> ms.field "end" (·.expr)
  | .range => .range <$> ms.field "start" (·.expr) <*> ms.field "end" (·.expr)
  | .stepped =>
    .stepped <$> ms.field "start" (·.expr) <*> ms.field "end" (·.expr) <*>
      ms.field "increment" (·.expr)

/-- A command of a kind. -/
def command (ms : Members) (kind : Command.Kind) : Reading Command :=
  let position := ms.field "position" (·.position)
  let expression := ms.field "expression" (·.expr)
  let target := ms.field "variable" (·.path)
  let body := ms.field "body" (·.command)
  match kind with
  | .multiple => .multiple <$> ms.field "commands" (·.commands)
  | .data => .data <$> ms.field "text" (·.text)
  | .comment => .comment <$> position <*> ms.fieldOr "text" none (·.optionalText)
  | .output form => .output form <$> position <*> expression
  | .assign => .assign <$> position <*> target <*> expression
  | .name => .name <$> position <*> target
  | .wrap form => .wrap form <$> position <*> expression <*> body
  | .bind form => .bind form <$> position <*> target <*> expression <*> body
  | .loop kind => .loop <$> position <*> target <*> ms.bounds kind <*> body
  | .define =>
    .define <$> position <*> ms.field "name" (·.name) <*> ms.fieldOr "arguments" [] (·.paths) <*>
      body
  | .call =>
    .call <$> position <*> ms.field "name" (·.name) <*> ms.fieldOr "arguments" [] (·.exprs)
  | .ifElse =>
    .ifElse <$> position <*> ms.field "condition" (·.expr) <*> ms.field "block" (·.command) <*>
      ms.field "otherwise" (·.command)
  | .inclusion form => .inclusion form <$> position <*> ms.field "target" (·.expr)
  | .contentType => .contentType <$> position <*> ms.field "value" (·.text)
  | .inline => .inline <$> position <*> body
  | .noop => .ok .noop

/-- A node of a family: its tag must name a kind of the family. -/
def tagged {κ α : Type} (ms : Members) (ofTag? : Text → Option κ) (tag : κ → Text)
    (read : κ → Reading α) : Reading α :=
  match Json.member? "type" ms with
  | none => .issue .tagMissing
  | some r =>
    match r.tag.bind ofTag? with
    | none => .issue .tagUnknown
    | some kind => (read kind).beneath (.key (tag kind))

end Members

namespace Roles

/-- The roles of a value that is neither a list nor an object, from what it is
as a text and as an integer. -/
def ofScalar (tag : Option Text) (text : Reading Text) (optionalText : Reading (Option Text))
    (integer : Reading Int) : Roles where
  tag := tag
  text := text
  optionalText := optionalText
  integer := integer
  position := .issue .positionExpected
  name := .issue .arrayExpected
  path := .issue .objectExpected
  paths := .issue .arrayExpected
  expr := .issue .objectExpected
  exprs := .issue .arrayExpected
  command := .issue .objectExpected
  commands := .issue .arrayExpected

/-- The words of a name, at least one. -/
def nameOf : List Text → Reading MacroName
  | [] => .issue .tooShort
  | first :: more => .ok ⟨first, more⟩

/-- A name from the readings of its words. -/
def nameOfWords (words : Reading (List Text)) : Reading MacroName :=
  match words with
  | .ok ws => nameOf ws
  | .bad issues => .bad issues

/-- The roles of a list from those of its items. -/
def ofItems (items : List Roles) : Roles where
  tag := none
  text := .issue .textExpected
  optionalText := .issue .textExpected
  integer := .issue .integerExpected
  position := .issue .positionExpected
  name := nameOfWords (Reading.each 0 (items.map (·.text)))
  path := .issue .objectExpected
  paths := Reading.each 0 (items.map (·.path))
  expr := .issue .objectExpected
  exprs := Reading.each 0 (items.map (·.expr))
  command := .issue .objectExpected
  commands := Reading.each 0 (items.map (·.command))

/-- The roles of an object from those of its members. -/
def ofMembers (ms : Members) : Roles where
  tag := none
  text := .issue .textExpected
  optionalText := .issue .textExpected
  integer := .issue .integerExpected
  position := ms.position
  name := .issue .arrayExpected
  path := ms.tagged Variable.Kind.ofTag? Variable.Kind.tag ms.path
  paths := .issue .arrayExpected
  expr := ms.tagged Expr.Kind.ofTag? Expr.Kind.tag ms.expr
  exprs := .issue .arrayExpected
  command := ms.tagged Command.Kind.ofTag? Command.Kind.tag ms.command
  commands := .issue .arrayExpected

end Roles

namespace Json

/-- A value without parts in every role. -/
def scalarRoles (v : Json) : Roles := .ofScalar v.text? v.asText v.asOptionalText v.asInteger

mutual

/-- A value in every role. -/
def roles : Json → Roles
  | array items => .ofItems (rolesOfItems items)
  | object members => .ofMembers (rolesOfMembers members)
  | null => scalarRoles null
  | bool b => scalarRoles (bool b)
  | integer n => scalarRoles (integer n)
  | decimal mantissa exponent => scalarRoles (decimal mantissa exponent)
  | nonFinite n => scalarRoles (nonFinite n)
  | string t => scalarRoles (string t)

def rolesOfItems : List Json → List Roles
  | [] => []
  | v :: vs => v.roles :: rolesOfItems vs

def rolesOfMembers : List (Text × Json) → Members
  | [] => []
  | (k, v) :: ms => (k, v.roles) :: rolesOfMembers ms

end

end Json

end ClearSilver
