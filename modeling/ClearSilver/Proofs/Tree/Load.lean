/-
# A tree comes back from its JSON

What is written for a tree is read in its role (`Command.readBack`), so any
text that is read as a variant of a tree's JSON is loaded as the tree. The only
numbers in a tree are those of its positions (`Node.readable_toJson`), so its
own text is JSON unless one of these has too many digits or the tree nests too
deep (`Node.within`).

Key definitions: `Position.readable`, `Node.within`, `Command.nested`.
Key theorems: `Node.readable_toJson`, `Node.within_toJson`,
`JsonLibrary.load_render_of_variant`, `JsonLibrary.load_variants`.
-/
import ClearSilver.Proofs.Json.Render
import ClearSilver.Proofs.Tree.Records
import ClearSilver.Proofs.Tree.Roles
import ClearSilver.Tree.Load

namespace ClearSilver

open Json

/-! ### The numbers of a tree -/

/-- Have the numbers of a position few enough digits to be read? -/
def Position.readable (limits : Limits) (p : Position) : Bool :=
  fits limits p.offset && fits limits p.line && fits limits p.column

variable {limits : Limits}

theorem Position.readable_toJson (p : Position) :
    Json.readable limits p.toJson = p.readable limits := by
  simp [toJson, Json.readable, readableMembers, Position.readable, Bool.and_assoc]

theorem readableItems_map {α : Type} (f : α → Json) (as : List α) :
    readableItems limits (as.map f) = as.all fun a => Json.readable limits (f a) := by
  induction as with
  | nil => rfl
  | cons a as ih => rw [List.map_cons, readableItems, ih, List.all_cons]

theorem Expr.toJsonAll_eq_map (es : List Expr) : Expr.toJsonAll es = es.map Expr.toJson := by
  induction es with
  | nil => rfl
  | cons e es ih => rw [Expr.toJsonAll, ih, List.map_cons]

theorem Command.toJsonAll_eq_map (cs : List Command) :
    Command.toJsonAll cs = cs.map Command.toJson := by
  induction cs with
  | nil => rfl
  | cons c cs ih => rw [Command.toJsonAll, ih, List.map_cons]

theorem MacroName.readable_toJson (n : MacroName) : Json.readable limits n.toJson = true := by
  rw [toJson, Json.readable, readableItems_map]
  exact List.all_eq_true.mpr fun t _ => rfl

namespace Node

theorem toJson_command (c : Command) : (command c).toJson = c.toJson := rfl

theorem toJson_expr (e : Expr) : (expr e).toJson = e.toJson := rfl

theorem toJson_path (v : Variable) : (path v).toJson = v.toJson := rfl

/-- The numbers of a tree are those of the root's position, then those of the
children. -/
theorem readable_toJson_eq (x : Node) :
    Json.readable limits x.toJson = (x.position?.toList.all (Position.readable limits) &&
      x.children.all fun y => Json.readable limits y.toJson) := by
  cases x with
  | path v =>
    cases v <;> simp [toJson_path, toJson_expr, Variable.toJson, taggedJson, Json.readable,
      readableMembers, position?, children, fields, Variable.fields, FieldValue.held]
  | expr e =>
    cases e <;> simp [toJson_expr, toJson_path, Expr.toJson, taggedJson, Json.readable,
      readableMembers, position?, children, fields, Expr.fields, FieldValue.held,
      Expr.toJsonAll_eq_map, readableItems_map, Function.comp_def]
  | command c =>
    have hall : Json.readable limits c.toJson =
        (c.position?.toList.all (Position.readable limits) &&
        (command c).children.all fun y => Json.readable limits y.toJson) := by
      cases c with
      | loop p v b body =>
        cases b <;> simp [toJson_command, toJson_expr, toJson_path, Command.toJson, placedJson,
          taggedJson, Json.readable, readableMembers, children, fields, Command.fields,
          FieldValue.held, Command.position?, Bounds.toMembers, Bounds.fields, Command.bodyField,
          Position.readable_toJson]
      | comment p t =>
        cases t <;> simp [Command.toJson, placedJson, taggedJson, Json.readable, readableMembers,
          children, fields, Command.fields, FieldValue.held, Command.position?, optionalJson,
          Position.readable_toJson]
      | _ =>
        simp [toJson_command, toJson_expr, toJson_path, Command.toJson, placedJson, taggedJson,
          Json.readable, readableMembers, children, fields, Command.fields, FieldValue.held,
          Command.position?, Command.bodyField, Expr.toJsonAll_eq_map, Command.toJsonAll_eq_map,
          readableItems_map, Function.comp_def, Position.readable_toJson,
          MacroName.readable_toJson]
    exact hall

/-- **The numbers of a tree are those of its positions.** -/
theorem readable_toJson (x : Node) :
    Json.readable limits x.toJson = x.positions.all (Position.readable limits) := by
  induction x using induction_children with
  | _ x ih =>
    have hchildren : (x.children.all fun y => Json.readable limits y.toJson) =
        (x.children.flatMap positions).all (Position.readable limits) := by
      rw [List.all_flatMap, Bool.eq_iff_iff, List.all_eq_true, List.all_eq_true]
      exact forall₂_congr fun y hy => by rw [ih y hy]
    rw [readable_toJson_eq, positions_eq, List.all_append, hchildren]

/-- Can the numbers of a tree be read, and does its JSON not nest too deep? -/
def within (limits : Limits) (x : Node) : Bool :=
  x.positions.all (Position.readable limits) && x.toJson.levels hasParts ≤ limits.levels

theorem within_toJson (x : Node) : x.toJson.within limits = x.within limits := by
  rw [Json.within, readable_toJson, within]

end Node

/-! ### The round trip -/

namespace JsonLibrary

section
variable {lib : JsonLibrary} {c : Command} {v : Json}

/-- A text that is read as a variant of a tree's JSON is loaded as the tree. -/
theorem load_of_variant (hlib : lib.Validates) {text : Text} (hv : Variant c.toJson v)
    (htext : lib.read text = some v) : lib.load text = .ok c := by
  have hc : lib.command v = .ok c := c.readBack hlib v hv
  rw [load, htext]
  simp only [hc]

variable (hlib : lib.Lawful limits)
include hlib

theorem read_render (v : Json) (indent : Option Nat) :
    lib.read (v.render indent 0) = if v.within limits then some v else none := by
  rw [hlib.read_eq, ofText?_render]

theorem load_render_of_variant (hv : Variant c.toJson v) (indent : Option Nat) :
    lib.load (v.render indent 0) = if v.within limits then .ok c else .error .notJson := by
  have hread := read_render hlib v indent
  cases hwithin : v.within limits with
  | true =>
    rw [hwithin, if_pos rfl] at hread
    rw [if_pos rfl, load_of_variant hlib.toValidates hv hread]
  | false =>
    rw [hwithin, if_neg (by decide)] at hread
    rw [if_neg (by decide), load, hread]

/-- What is written for a tree is loaded as the tree, or refused. -/
theorem load_of_write {indent : Option Nat} {text : Text}
    (hwrite : lib.write indent (.command c) = some text) :
    lib.load text = if (Node.command c).within limits then .ok c else .error .notJson := by
  rw [hlib.eq_jsonText_of_write _ _ _ hwrite, ← Node.within_toJson]
  exact load_render_of_variant hlib (.same c.toJson) indent

/-- **A tree comes back from its JSON**, compact or with an indent, if it keeps
within the limits, and from every text of a variant of it. A tree beyond the
limits is not written, or its text is refused. -/
theorem load_variants (c : Command) :
    (∀ indent, ((Node.command c).within limits → (lib.write indent (.command c)).isSome) ∧
      ∀ text, lib.write indent (.command c) = some text →
        lib.load text = if (Node.command c).within limits then .ok c else .error .notJson) ∧
    ∀ v, Variant c.toJson v →
      (∀ text, lib.read text = some v → lib.load text = .ok c) ∧
      ∀ indent, lib.load (v.render indent 0) =
        if v.within limits then .ok c else .error .notJson := by
  refine ⟨fun indent => ⟨fun hwithin => ?_, fun _ => load_of_write hlib⟩, fun v hv =>
    ⟨fun _ => load_of_variant hlib.toValidates hv, load_render_of_variant hlib hv⟩⟩
  rw [← Node.within_toJson] at hwithin
  exact hlib.isSome_write indent _ hwithin

end

/-- The comment comes back from what is written for it, and from an object whose
keys are in another order, its position's too, with one key more and no text. -/
theorem load_variants_comment :
    let c : Command := .comment ⟨2, 1, 3⟩ none
    let text : String := "\x7b\"position\":\x7b\"line\":1,\"offset\":2,\"column\":3\x7d," ++
      "\"type\":\"comment\",\"x\":[null]\x7d"
    standard.Lawful .standard ∧
    (∃ written, standard.write (some 2) (.command c) = some written ∧
      standard.load written = .ok c) ∧
    ∃ v, Variant c.toJson v ∧ v.render none 0 = text.toList ∧
      standard.load text.toList = .ok c := by
  intro c text
  let p : List (Text × Json) :=
    [("line", .integer 1), ("offset", .integer 2), ("column", .integer 3)]
  let added : List (Text × Json) := [("x", .array [.null])]
  let v : Json := .object (("position", .object p) :: ("type", .string "comment") :: added)
  have hadded : ∀ m ∈ added, m.1 ∉ (["type", "position", "text"] : List Text) := by decide
  have hp : Variant (Position.toJson ⟨2, 1, 3⟩) (.object p) :=
    .object (.same .same _) (List.forall_mem_nil _) (.swap _ _ _)
  have hv : Variant c.toJson v :=
    .object (.keep (.same _) (.keep hp (.leave rfl .nil))) hadded (.swap _ _ _)
  have htext : v.render none 0 = text.toList := by decide
  have hwithin : (Node.command c).within .standard = true := by decide +kernel
  obtain ⟨hwritten, hvariants⟩ := load_variants lawful_standard c
  refine ⟨lawful_standard, ?_, v, hv, htext, ?_⟩
  · obtain ⟨hsome, hback⟩ := hwritten (some 2)
    obtain ⟨written, hwrite⟩ := Option.isSome_iff_exists.mp (hsome hwithin)
    have hload := hback written hwrite
    rw [if_pos hwithin] at hload
    exact ⟨written, hwrite, hload⟩
  · have hload := (hvariants v hv).2 none
    rw [if_pos (by decide +kernel), htext] at hload
    exact hload

end JsonLibrary

/-! ### Beyond the limits -/

/-- Blocks of commands in each other. -/
def Command.nested : Nat → Command
  | 0 => .noop
  | n + 1 => .multiple [nested n]

theorem Command.levels_nested (n : Nat) : (nested n).toJson.levels hasParts = 2 * n + 1 := by
  induction n with
  | zero => rfl
  | succ n ih =>
    rw [nested, toJson, toJsonAll, toJsonAll, taggedJson]
    simp only [Json.levels, levelsOfMembers, levelsOfItems, ih, hasParts, Bool.toNat_true]
    omega

/-- A list and an object open two levels for each block. -/
theorem Node.within_nested (n : Nat) :
    (command (.nested n)).within limits = decide (2 * n + 1 ≤ limits.levels) := by
  have hpositions : (command (.nested n)).positions = [] := by
    induction n with
    | zero => rfl
    | succ n ih =>
      have hchildren : (command (.nested (n + 1))).children = [command (.nested n)] := rfl
      rw [positions_eq, hchildren, List.flatMap_singleton, ih]
      rfl
  rw [within, hpositions, List.all_nil, Bool.true_and, toJson_command, Command.levels_nested]

namespace JsonLibrary

/-- One digit too many in a position, one block too many, or a long number under a
key that is none of the node's, and the text is no JSON. -/
theorem load_beyond_limits :
    let long : Command := .comment ⟨leastLong, 1, 1⟩ none
    let altered : Json := .object [("type", .string "noop"), ("x", .integer leastLong)]
    (∃ text, standard.write none (.command long) = some text ∧
      standard.load text = .error .notJson) ∧
    (∃ text, standard.write none (.command (.nested 100)) = some text ∧
      standard.load text = .error .notJson) ∧
    Variant (Command.toJson .noop) altered ∧
    standard.load (altered.render none 0) = .error .notJson := by
  intro long altered
  have hrefused : ∀ c : Command, c.toJson.levels hasMembers ≤ maxWritten →
      (Node.command c).within .standard = false → ∃ text,
        standard.write none (.command c) = some text ∧ standard.load text = .error .notJson := by
    intro c hlevels hwithin
    have hwrite : standard.write none (.command c) = some (Node.jsonText none (.command c)) :=
      if_pos hlevels
    have hload := load_of_write lawful_standard hwrite
    rw [hwithin, if_neg (by decide)] at hload
    exact ⟨_, hwrite, hload⟩
  have hlong : (Node.command long).within .standard = false := by
    rw [Node.within, Node.positions_eq]
    simp [long, Node.position?, Command.position?, Position.readable, fits_leastLong]
  have haltered : altered.within .standard = false := by
    simp [altered, Json.within, Json.readable, readableMembers, fits_leastLong]
  have hv : Variant (Command.toJson .noop) altered := by
    have hx : ∀ m ∈ ([("x", .integer leastLong)] : List (Text × Json)),
        m.1 ∉ (["type"] : List Text) := by simp
    exact .object (.same .same _) hx (.refl _)
  refine ⟨hrefused long (by decide) hlong, hrefused _ (by decide +kernel) ?_, hv, ?_⟩
  · rw [Node.within_nested]
    decide
  · rw [load_render_of_variant lawful_standard hv, haltered, if_neg (by decide)]

end JsonLibrary

end ClearSilver
