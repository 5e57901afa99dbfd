/-
# Reading a tree back from JSON

A library for JSON is given from outside. It reads texts as values, says what
a value is in each role that it can have in a tree, and writes trees. To load
a text is to read it and to take the value as a command.

What is relied on is stated as laws. A text is read by the grammar of JSON,
within limits. What arrays and objects are in each role follows from their
parts, by the rules for roles; of a value without parts it matters only what a
text, an integer and null are in the roles they are written for. A tree is
written as its JSON text, if the text keeps within the limits for reading: a
tree that nests deeper may not be written at all.

Key definitions: `JsonLibrary`, `JsonLibrary.Validates`, `JsonLibrary.Lawful`,
`LoadFault`, `JsonLibrary.load`, `JsonLibrary.standard`.
Key theorems: `JsonLibrary.lawful_standard`.
-/
import ClearSilver.Json.Reader
import ClearSilver.Tree.Json
import ClearSilver.Tree.Roles

namespace ClearSilver

/-- A library for JSON. -/
structure JsonLibrary where
  /-- The value that a text is. -/
  read : Text → Option Json
  /-- The text of a tree, compact or with an indent, if the tree can be written. -/
  write : Option Nat → Node → Option Text
  /-- What a value is in each role. -/
  roles : Json → Roles

/-- Why a text is not the JSON of a tree. -/
inductive LoadFault
  | notJson
  | issues (found : List Issue)

namespace JsonLibrary

variable (lib : JsonLibrary)

/-- The members of an object with their roles. -/
def members (ms : List (Text × Json)) : Members := ms.map fun m => (m.1, lib.roles m.2)

/-- The command that a value is. -/
def command (v : Json) : Reading Command := (lib.roles v).command

/-- The command that a JSON text is. -/
def load (t : Text) : Except LoadFault Command :=
  match lib.read t with
  | none => .error .notJson
  | some v =>
    match lib.command v with
    | .ok c => .ok c
    | .bad found => .error (.issues found)

/-! ### Laws -/

/-- Values are validated by the rules for roles. -/
structure Validates : Prop where
  roles_array : ∀ vs, lib.roles (.array vs) = .ofItems (vs.map lib.roles)
  roles_object : ∀ ms, lib.roles (.object ms) = .ofMembers (lib.members ms)
  /-- A value without parts is no node, position or list. -/
  roles_scalar : ∀ v, v.isScalar → ∃ text optionalText integer,
    lib.roles v = .ofScalar v.text? text optionalText integer
  text_string : ∀ t, (lib.roles (.string t)).text = .ok t
  optionalText_string : ∀ t, (lib.roles (.string t)).optionalText = .ok (some t)
  optionalText_null : (lib.roles .null).optionalText = .ok none
  integer_integer : ∀ n, (lib.roles (.integer n)).integer = .ok n

/-- The library does its work, within some limits. -/
structure Lawful (limits : Json.Limits) : Prop extends lib.Validates where
  read_eq : ∀ t, lib.read t = Json.ofText? limits t
  eq_jsonText_of_write : ∀ indent n t, lib.write indent n = some t → t = n.jsonText indent
  isSome_write : ∀ indent n, n.toJson.within limits → (lib.write indent n).isSome

/-! ### The library in use -/

/-- The most levels of objects in a tree that is written. -/
def maxWritten : Nat := 255

/-- The library in use. It writes deeper trees than it reads. -/
def standard : JsonLibrary where
  read := Json.ofText? .standard
  write indent n :=
    if n.toJson.levels Json.hasMembers ≤ maxWritten then some (n.jsonText indent) else none
  roles := Json.roles

theorem rolesOfItems_eq_map (vs : List Json) : Json.rolesOfItems vs = vs.map Json.roles := by
  induction vs with
  | nil => rfl
  | cons v vs ih => rw [Json.rolesOfItems, ih, List.map_cons]

theorem rolesOfMembers_eq_map (ms : List (Text × Json)) :
    Json.rolesOfMembers ms = ms.map fun m => (m.1, m.2.roles) := by
  induction ms with
  | nil => rfl
  | cons m ms ih => rw [Json.rolesOfMembers, ih, List.map_cons]

theorem validates_standard : standard.Validates where
  roles_array vs := congrArg Roles.ofItems (rolesOfItems_eq_map vs)
  roles_object ms := congrArg Roles.ofMembers (rolesOfMembers_eq_map ms)
  roles_scalar v hv := by
    refine ⟨v.asText, v.asOptionalText, v.asInteger, ?_⟩
    cases v with
    | array | object => cases hv
    | _ => rfl
  text_string _ := rfl
  optionalText_string _ := rfl
  optionalText_null := rfl
  integer_integer _ := rfl

/-- **The laws hold of the library in use.** -/
theorem lawful_standard : standard.Lawful .standard where
  toValidates := validates_standard
  read_eq _ := rfl
  eq_jsonText_of_write indent n t h := by
    simp only [standard, Option.ite_none_right_eq_some, Option.some.injEq] at h
    exact h.2.symm
  isSome_write indent n h := by
    have hcounts : ∀ v : Json, v.hasMembers → v.hasParts := by
      intro v hv
      cases v with
      | object ms =>
        cases ms with
        | nil => cases hv
        | cons m ms => rfl
      | _ => cases hv
    have hread : n.toJson.levels Json.hasParts ≤ Json.Limits.standard.levels := by
      simpa using (Bool.and_eq_true_iff.mp h).2
    have hwritten : n.toJson.levels Json.hasMembers ≤ maxWritten :=
      Nat.le_trans (Json.levels_mono hcounts _) (Nat.le_trans hread (by decide))
    simp only [standard, if_pos hwritten, Option.isSome_some]

end JsonLibrary

end ClearSilver
