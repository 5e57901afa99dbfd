/-
# Fields, children and walks

A node has named fields, in a fixed order: texts, the words of a macro name,
nodes and lists of nodes. Its children are the nodes among its fields.
`Node.walk` goes through a tree from the root down, keeping a list of the
nodes it still has to see; `Node.visits` goes through it by a table that says
for some kinds of nodes that they are recorded and whether to go on below
them. Both are given the number of nodes of the tree, which is how many steps
they need at most.

Key definitions: `Node.fields`, `Node.children`, `Node.count`, `Node.walk`,
`Node.visits`, `Node.follow?`.
-/
import ClearSilver.Tree.Kind

namespace ClearSilver

/-- What a field of a node holds. -/
inductive FieldValue
  | text (t : Text)
  | optionalText (t : Option Text)
  | words (ws : List Text)
  | node (n : Node)
  | nodes (ns : List Node)

/-- The nodes in a field. -/
def FieldValue.held : FieldValue → List Node
  | node n => [n]
  | nodes ns => ns
  | _ => []

/-! ### Fields -/

namespace Variable

def fields : Variable → List (Text × FieldValue)
  | .name word => [("word", .text word)]
  | .decNumber digits => [("value", .text digits)]
  | .hexNumber digits => [("value", .text digits)]
  | .descend parent child => [("parent", .node (.path parent)), ("child", .node (.path child))]
  | .expand parent index => [("parent", .node (.path parent)), ("index", .node (.expr index))]

end Variable

namespace Expr

def fields : Expr → List (Text × FieldValue)
  | .string value => [("value", .text value)]
  | .decimal digits => [("value", .text digits)]
  | .hex digits => [("value", .text digits)]
  | .lookup path => [("variable", .node (.path path))]
  | .apply callee arguments =>
    [("callee", .node (.path callee)), ("arguments", .nodes (arguments.map .expr))]
  | .sequence items => [("items", .nodes (items.map .expr))]
  | .unary _ operand => [("operand", .node (.expr operand))]
  | .binary _ left right => [("left", .node (.expr left)), ("right", .node (.expr right))]
  | .noop => []

end Expr

def Bounds.fields : Bounds → List (Text × FieldValue)
  | .upTo stop => [("end", .node (.expr stop))]
  | .range start stop => [("start", .node (.expr start)), ("end", .node (.expr stop))]
  | .stepped start stop step =>
    [("start", .node (.expr start)), ("end", .node (.expr stop)), ("increment", .node (.expr step))]

namespace Command

/-- The field of what a block encloses. -/
def bodyField (body : Command) : Text × FieldValue := ("body", .node (.command body))

/-- The fields of a command, its position left out. -/
def fields : Command → List (Text × FieldValue)
  | .multiple commands => [("commands", .nodes (commands.map .command))]
  | .data text => [("text", .text text)]
  | .comment _ text => [("text", .optionalText text)]
  | .output _ _ expression => [("expression", .node (.expr expression))]
  | .assign _ target expression =>
    [("variable", .node (.path target)), ("expression", .node (.expr expression))]
  | .name _ target => [("variable", .node (.path target))]
  | .wrap _ _ expression body => [("expression", .node (.expr expression)), bodyField body]
  | .bind _ _ target expression body =>
    [("variable", .node (.path target)), ("expression", .node (.expr expression)),
     bodyField body]
  | .loop _ target bounds body =>
    ("variable", .node (.path target)) :: (bounds.fields ++ [bodyField body])
  | .define _ called parameters body =>
    [("name", .words called.words), ("arguments", .nodes (parameters.map .path)),
     bodyField body]
  | .call _ called arguments =>
    [("name", .words called.words), ("arguments", .nodes (arguments.map .expr))]
  | .ifElse _ condition block otherwise =>
    [("condition", .node (.expr condition)), ("block", .node (.command block)),
     ("otherwise", .node (.command otherwise))]
  | .inclusion _ _ target => [("target", .node (.expr target))]
  | .contentType _ value => [("value", .text value)]
  | .inline _ body => [bodyField body]
  | .noop => []

end Command

namespace Node

def fields : Node → List (Text × FieldValue)
  | command c => c.fields
  | expr e => e.fields
  | path v => v.fields

/-- The nodes just below a node, in the order of its fields. -/
def children (n : Node) : List Node := n.fields.flatMap (·.2.held)

end Node

/-! ### The number of nodes -/

mutual

def Variable.count : Variable → Nat
  | .name _ | .decNumber _ | .hexNumber _ => 1
  | .descend parent child => parent.count + child.count + 1
  | .expand parent index => parent.count + index.count + 1

def Expr.count : Expr → Nat
  | .string _ | .decimal _ | .hex _ | .noop => 1
  | .lookup path => path.count + 1
  | .apply callee arguments => callee.count + Expr.countAll arguments + 1
  | .sequence items => Expr.countAll items + 1
  | .unary _ operand => operand.count + 1
  | .binary _ left right => left.count + right.count + 1

def Expr.countAll : List Expr → Nat
  | [] => 0
  | e :: es => e.count + Expr.countAll es

end

def Variable.countAll : List Variable → Nat
  | [] => 0
  | v :: vs => v.count + countAll vs

def Bounds.count : Bounds → Nat
  | .upTo stop => stop.count
  | .range start stop => start.count + stop.count
  | .stepped start stop step => start.count + stop.count + step.count

mutual

def Command.count : Command → Nat
  | .multiple commands => Command.countAll commands + 1
  | .data _ | .comment _ _ | .contentType _ _ | .noop => 1
  | .output _ _ expression => expression.count + 1
  | .assign _ target expression => target.count + expression.count + 1
  | .name _ target => target.count + 1
  | .wrap _ _ expression body => expression.count + body.count + 1
  | .bind _ _ target expression body => target.count + expression.count + body.count + 1
  | .loop _ target bounds body => target.count + bounds.count + body.count + 1
  | .define _ _ parameters body => Variable.countAll parameters + body.count + 1
  | .call _ _ arguments => Expr.countAll arguments + 1
  | .ifElse _ condition block otherwise => condition.count + block.count + otherwise.count + 1
  | .inclusion _ _ target => target.count + 1
  | .inline _ body => body.count + 1

def Command.countAll : List Command → Nat
  | [] => 0
  | c :: cs => c.count + Command.countAll cs

end

namespace Node

/-- The number of nodes of a tree. -/
def count : Node → Nat
  | command c => c.count
  | expr e => e.count
  | path v => v.count

/-! ### Walks -/

/-- At most `n` steps of a walk that still has the nodes of `pending` to see. -/
def walkPending : (n : Nat) → (pending : List Node) → List Node
  | 0, _ => []
  | _, [] => []
  | n + 1, x :: pending => x :: walkPending n (x.children ++ pending)

/-- A node and all nodes below it, each before those below it. -/
def walk (x : Node) : List Node := walkPending x.count [x]

/-- The nodes recorded from `x` down, at most `n` levels deep. -/
def visitsWithin (handle : Kind → Option Bool) : (n : Nat) → Node → List Node
  | 0, _ => []
  | n + 1, x =>
    let below := x.children.flatMap (visitsWithin handle n)
    match handle x.kind with
    | none => below
    | some true => x :: below
    | some false => [x]

/-- The nodes that a visit by a table records. A kind the table does not
mention is passed through; one it mentions is recorded, and the visit goes on
below it if the table says so. -/
def visits (handle : Kind → Option Bool) (x : Node) : List Node :=
  visitsWithin handle x.count x

/-! ### Places in a tree -/

/-- A step down: an item of a list of commands, or a named field. -/
inductive Step
  | item (index : Nat)
  | field (name : Text)

/-- The node one step down. -/
def step? (x : Node) : Step → Option Node
  | .item index =>
    match x with
    | command (.multiple cs) => cs[index]?.map .command
    | _ => none
  | .field name =>
    match x.fields.find? (·.1 = name) with
    | some (_, .node n) => some n
    | _ => none

/-- The node at the end of some steps. -/
def follow? (x : Node) (steps : List Step) : Option Node := steps.foldlM step? x

end Node
end ClearSilver
