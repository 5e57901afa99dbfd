/-
# Trees as JSON

A node is an object with its tag under `type`, its position if it has one and
its fields. The tag comes first, on binary operators last.

Key definitions: `Position.toJson`, `Variable.toJson`, `Expr.toJson`,
`Command.toJson`, `Node.toJson`.
-/
import ClearSilver.Tree.Kind
import ClearSilver.Json.Basic

namespace ClearSilver

def Position.toJson (p : Position) : Json :=
  .object [("offset", .integer p.offset), ("line", .integer p.line), ("column", .integer p.column)]

def MacroName.toJson (n : MacroName) : Json := .array (n.words.map .string)

/-- An object with its tag first. -/
def taggedJson (tag : Text) (members : List (Text × Json)) : Json :=
  .object (("type", .string tag) :: members)

mutual

def Variable.toJson : Variable → Json
  | .name word => taggedJson "name" [("word", .string word)]
  | .decNumber digits => taggedJson "dec_number" [("value", .string digits)]
  | .hexNumber digits => taggedJson "hex_number" [("value", .string digits)]
  | .descend parent child =>
    taggedJson "descend" [("parent", parent.toJson), ("child", child.toJson)]
  | .expand parent index =>
    taggedJson "expand" [("parent", parent.toJson), ("index", index.toJson)]

def Expr.toJson : Expr → Json
  | .string value => taggedJson "string" [("value", .string value)]
  | .decimal digits => taggedJson "decimal" [("value", .string digits)]
  | .hex digits => taggedJson "hex" [("value", .string digits)]
  | .lookup path => taggedJson "variable" [("variable", path.toJson)]
  | .apply callee arguments =>
    taggedJson "function"
      [("callee", callee.toJson), ("arguments", .array (Expr.toJsonAll arguments))]
  | .sequence items => taggedJson "sequence" [("items", .array (Expr.toJsonAll items))]
  | .unary op operand => taggedJson op.tag [("operand", operand.toJson)]
  | .binary op left right =>
    .object [("left", left.toJson), ("right", right.toJson), ("type", .string op.tag)]
  | .noop => taggedJson "noop" []

def Expr.toJsonAll : List Expr → List Json
  | [] => []
  | e :: es => e.toJson :: Expr.toJsonAll es

end

/-- The members for the bounds of a loop. -/
def Bounds.toMembers : Bounds → List (Text × Json)
  | .upTo stop => [("end", stop.toJson)]
  | .range start stop => [("start", start.toJson), ("end", stop.toJson)]
  | .stepped start stop step =>
    [("start", start.toJson), ("end", stop.toJson), ("increment", step.toJson)]

/-- An object with its tag and its position first. -/
def placedJson (tag : Text) (position : Position) (members : List (Text × Json)) : Json :=
  taggedJson tag (("position", position.toJson) :: members)

/-- A text, or null. -/
def optionalJson (t : Option Text) : Json := (t.map Json.string).getD .null

mutual

def Command.toJson : Command → Json
  | .multiple commands => taggedJson "multiple" [("commands", .array (Command.toJsonAll commands))]
  | .data text => taggedJson "data" [("text", .string text)]
  | .comment position text => placedJson "comment" position [("text", optionalJson text)]
  | .output form position expression =>
    placedJson form.tag position [("expression", expression.toJson)]
  | .assign position target expression =>
    placedJson "set" position [("variable", target.toJson), ("expression", expression.toJson)]
  | .name position target => placedJson "name" position [("variable", target.toJson)]
  | .wrap form position expression body =>
    placedJson form.tag position [("expression", expression.toJson), ("body", body.toJson)]
  | .bind form position target expression body =>
    placedJson form.tag position
      [("variable", target.toJson), ("expression", expression.toJson), ("body", body.toJson)]
  | .loop position target bounds body =>
    let last : List (Text × Json) := [("body", body.toJson)]
    placedJson bounds.kind.tag position
      (("variable", target.toJson) :: (bounds.toMembers ++ last))
  | .define position called parameters body =>
    placedJson "def" position
      [("name", called.toJson), ("arguments", .array (parameters.map Variable.toJson)),
       ("body", body.toJson)]
  | .call position called arguments =>
    placedJson "call" position
      [("name", called.toJson), ("arguments", .array (Expr.toJsonAll arguments))]
  | .ifElse position condition block otherwise =>
    placedJson "if" position
      [("condition", condition.toJson), ("block", block.toJson), ("otherwise", otherwise.toJson)]
  | .inclusion form position target => placedJson form.tag position [("target", target.toJson)]
  | .contentType position value => placedJson "content_type" position [("value", .string value)]
  | .inline position body => placedJson "inline" position [("body", body.toJson)]
  | .noop => taggedJson "noop" []

def Command.toJsonAll : List Command → List Json
  | [] => []
  | c :: cs => c.toJson :: Command.toJsonAll cs

end

namespace Node

def toJson : Node → Json
  | command c => c.toJson
  | expr e => e.toJson
  | path v => v.toJson

/-- A tree as JSON text, compact or with an indent. -/
def jsonText (indent : Option Nat) (n : Node) : Text := n.toJson.render indent 0

end Node
end ClearSilver
