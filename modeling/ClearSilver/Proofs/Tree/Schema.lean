/-
# The fields of a node

Every kind of node has its fields, in order. A field holds nodes, one or a
list, or a value without nodes that is read in some role, and it may be left
out or not. The readers of the three families follow this table: a node is
accepted if all of its fields are, and its faults are those of its fields, in
order, under the tag of the node and the key of the field
(`Family.check_of_tag`).

Key definitions: `Reading.check`, `Reading.all`, `Family`, `Field`,
`Command.Kind.fields`, `Family.fields?`, `Family.check`.
Key theorems: `Reading.issues_all`, `Reading.all_eq_ok`, `Family.check_of_tag`,
`Family.exists_fields_of_check`, `Family.nodup_keys`.
-/
import ClearSilver.Tree.Load
import Mathlib.Data.List.Nodup

namespace ClearSilver

/-! ### Checks -/

namespace Reading

variable {α β : Type}

/-- A reading but for what was read. -/
def check : Reading α → Reading Unit
  | ok _ => ok ()
  | bad issues => bad issues

/-- Two checks, with the faults of both. -/
def both : Reading Unit → Reading Unit → Reading Unit
  | ok _, r => r
  | bad issues, r => bad (issues ++ r.issues)

/-- All checks of a list, with the faults of each. -/
def all (rs : List (Reading Unit)) : Reading Unit := rs.foldr both (ok ())

/-- A reading of a part, its faults placed at the end of a path. -/
def under (path : List Place) (r : Reading α) : Reading α := path.foldr beneath r

@[simp] theorem check_ok (a : α) : (ok a).check = ok () := rfl

@[simp] theorem check_map (f : α → β) (r : Reading α) : (f <$> r).check = r.check := by
  cases r <;> rfl

@[simp] theorem check_seq (f : Reading (α → β)) (r : Reading α) :
    (f <*> r).check = both f.check r.check := by
  cases f <;> cases r <;> rfl

@[simp] theorem check_beneath (place : Place) (r : Reading α) :
    (r.beneath place).check = r.check.beneath place := by
  cases r <;> rfl

theorem check_eq_ok {r : Reading α} : r.check = ok () ↔ ∃ a, r = ok a := by
  cases r <;> simp [check]

theorem issues_check (r : Reading α) : r.check.issues = r.issues := by
  cases r <;> rfl

theorem beneath_eq_ok {place : Place} {r : Reading Unit} : r.beneath place = ok () ↔ r = ok () := by
  cases r <;> simp [beneath]

@[simp] theorem both_ok (r : Reading Unit) : both r (ok ()) = r := by
  cases r <;> simp [both, issues]

@[simp] theorem both_assoc (a b c : Reading Unit) : both (both a b) c = both a (both b c) := by
  cases a <;> cases b <;> simp [both, issues]

theorem both_eq_ok {a b : Reading Unit} : both a b = ok () ↔ a = ok () ∧ b = ok () := by
  cases a <;> simp [both]

theorem issues_both (a b : Reading Unit) : (both a b).issues = a.issues ++ b.issues := by
  cases a <;> simp [both, issues]

theorem beneath_both (place : Place) (a b : Reading Unit) :
    (both a b).beneath place = both (a.beneath place) (b.beneath place) := by
  cases a <;> cases b <;> simp [both, beneath, issues]

@[simp] theorem all_nil : all [] = ok () := rfl

@[simp] theorem all_cons (r : Reading Unit) (rs : List (Reading Unit)) :
    all (r :: rs) = both r (all rs) := rfl

theorem all_append (rs ss : List (Reading Unit)) : all (rs ++ ss) = both (all rs) (all ss) := by
  induction rs with
  | nil => rfl
  | cons r rs ih => rw [List.cons_append, all_cons, all_cons, ih, both_assoc]

theorem all_flatMap {σ : Type} (f : σ → List (Reading Unit)) (xs : List σ) :
    all (xs.flatMap f) = all (xs.map fun x => all (f x)) := by
  induction xs with
  | nil => rfl
  | cons x xs ih => rw [List.flatMap_cons, all_append, List.map_cons, all_cons, ih]

/-- All is well if each part is. -/
theorem all_eq_ok {rs : List (Reading Unit)} : all rs = ok () ↔ ∀ r ∈ rs, r = ok () := by
  induction rs with
  | nil => simp
  | cons r rs ih => rw [all_cons, both_eq_ok, ih, List.forall_mem_cons]

/-- The faults of a list of checks are those of each, in order. -/
theorem issues_all (rs : List (Reading Unit)) : (all rs).issues = rs.flatMap issues := by
  induction rs with
  | nil => rfl
  | cons r rs ih => rw [all_cons, issues_both, ih, List.flatMap_cons]

theorem beneath_all (place : Place) (rs : List (Reading Unit)) :
    (all rs).beneath place = all (rs.map (beneath place)) := by
  induction rs with
  | nil => rfl
  | cons r rs ih => rw [all_cons, beneath_both, ih, List.map_cons, all_cons]

theorem under_eq_ok {path : List Place} {r : Reading Unit} : r.under path = ok () ↔ r = ok () := by
  induction path with
  | nil => rfl
  | cons place path ih => exact beneath_eq_ok.trans ih

theorem issues_under (path : List Place) (r : Reading Unit) :
    (r.under path).issues = r.issues.map fun i => ⟨i.kind, path ++ i.path⟩ := by
  induction path with
  | nil => simp [under]
  | cons place path ih =>
    have hbeneath : (r.under (place :: path)).issues =
        (r.under path).issues.map fun i => ⟨i.kind, place :: i.path⟩ := by
      change ((r.under path).beneath place).issues = _
      cases r.under path <;> rfl
    rw [hbeneath, ih, List.map_map]
    rfl

end Reading

open Reading

/-! ### Families and their fields -/

/-- A family of nodes. -/
inductive Family
  | command | expr | path
deriving DecidableEq

/-- How many nodes there are. -/
inductive Shape
  | one (family : Family)
  | many (family : Family)
deriving DecidableEq

/-- Is the value a node of the family, and if not, why not? -/
def Family.check : Family → Roles → Reading Unit
  | command, r => r.command.check
  | expr, r => r.expr.check
  | path, r => r.path.check

def Shape.check : Shape → Roles → Reading Unit
  | one family, r => family.check r
  | many .command, r => r.commands.check
  | many .expr, r => r.exprs.check
  | many .path, r => r.paths.check

/-- What a field holds. -/
inductive Content
  /-- A value without nodes. -/
  | plain (role : Roles → Reading Unit)
  | nodes (shape : Shape)

def Content.check : Content → Roles → Reading Unit
  | plain role => role
  | nodes shape => shape.check

structure Field where
  key : Text
  content : Content
  required : Bool

namespace Field

def plain {α : Type} (key : Text) (role : Roles → Reading α) : Field :=
  ⟨key, .plain fun r => (role r).check, true⟩

def one (key : Text) (family : Family) : Field := ⟨key, .nodes (.one family), true⟩

def many (key : Text) (family : Family) : Field := ⟨key, .nodes (.many family), true⟩

/-- The field, which may now be left out. -/
def optional (field : Field) : Field := { field with required := false }

def position : Field := plain "position" (·.position)

/-- The field is there, or may be left out, and it holds what it should. -/
def check (field : Field) (ms : Members) : Reading Unit :=
  match Json.member? field.key ms with
  | none => if field.required then (Reading.issue .missing).beneath (.key field.key) else .ok ()
  | some r => (field.content.check r).beneath (.key field.key)

end Field

/-- The fields of a variable, in order. -/
def Variable.Kind.fields : Variable.Kind → List Field
  | name => [.plain "word" (·.text)]
  | decNumber => [.plain "value" (·.text)]
  | hexNumber => [.plain "value" (·.text)]
  | descend => [.one "parent" .path, .one "child" .path]
  | expand => [.one "parent" .path, .one "index" .expr]

/-- The fields of an expression, in order. -/
def Expr.Kind.fields : Expr.Kind → List Field
  | string => [.plain "value" (·.text)]
  | decimal => [.plain "value" (·.text)]
  | hex => [.plain "value" (·.text)]
  | lookup => [.one "variable" .path]
  | apply => [.one "callee" .path, (Field.many "arguments" .expr).optional]
  | sequence => [.many "items" .expr]
  | unary _ => [.one "operand" .expr]
  | binary _ => [.one "left" .expr, .one "right" .expr]
  | noop => []

def Bounds.Kind.fields : Bounds.Kind → List Field
  | upTo => [.one "end" .expr]
  | range => [.one "start" .expr, .one "end" .expr]
  | stepped => [.one "start" .expr, .one "end" .expr, .one "increment" .expr]

/-- The fields of a command, in order. -/
def Command.Kind.fields : Command.Kind → List Field
  | multiple => [.many "commands" .command]
  | data => [.plain "text" (·.text)]
  | comment => [.position, (Field.plain "text" (·.optionalText)).optional]
  | output _ => [.position, .one "expression" .expr]
  | assign => [.position, .one "variable" .path, .one "expression" .expr]
  | name => [.position, .one "variable" .path]
  | wrap _ => [.position, .one "expression" .expr, .one "body" .command]
  | bind _ => [.position, .one "variable" .path, .one "expression" .expr, .one "body" .command]
  | loop bounds => [.position, .one "variable" .path] ++ bounds.fields ++ [.one "body" .command]
  | define =>
    [.position, .plain "name" (·.name), (Field.many "arguments" .path).optional,
      .one "body" .command]
  | call => [.position, .plain "name" (·.name), (Field.many "arguments" .expr).optional]
  | ifElse =>
    [.position, .one "condition" .expr, .one "block" .command, .one "otherwise" .command]
  | inclusion _ => [.position, .one "target" .expr]
  | contentType => [.position, .plain "value" (·.text)]
  | inline => [.position, .one "body" .command]
  | noop => []

/-- The fields of the node of a family that has a tag. -/
def Family.fields? (tag : Text) : Family → Option (List Field)
  | command => (Command.Kind.ofTag? tag).map (·.fields)
  | expr => (Expr.Kind.ofTag? tag).map (·.fields)
  | path => (Variable.Kind.ofTag? tag).map (·.fields)

/-! ### Readers follow the table -/

namespace Members

variable {α : Type} {ms : Members} {key : Text} {role : Roles → Reading α}

theorem check_field : (ms.field key role).check = (Field.plain key role).check ms := by
  simp only [field, Field.check, Field.plain, Content.check]
  cases Json.member? key ms with
  | none => rfl
  | some r => rw [check_beneath]

theorem check_fieldOr (default : α) :
    (ms.fieldOr key default role).check = (Field.plain key role).optional.check ms := by
  simp only [fieldOr, Field.check, Field.plain, Field.optional, Content.check]
  cases Json.member? key ms with
  | none => rfl
  | some r => simp only [check_beneath]

theorem check_path (kind : Variable.Kind) :
    (ms.path kind).check = all (kind.fields.map (·.check ms)) := by
  cases kind <;>
    simp only [path, Variable.Kind.fields, check_map, check_seq, check_field, List.map_cons,
      List.map_nil, all_cons, all_nil, both_ok] <;> rfl

theorem check_expr (kind : Expr.Kind) :
    (ms.expr kind).check = all (kind.fields.map (·.check ms)) := by
  cases kind <;>
    simp only [expr, Expr.Kind.fields, check_map, check_seq, check_field, check_fieldOr, check_ok,
      List.map_cons, List.map_nil, all_cons, all_nil, both_ok] <;> rfl

theorem check_bounds (kind : Bounds.Kind) :
    (ms.bounds kind).check = all (kind.fields.map (·.check ms)) := by
  cases kind <;>
    simp only [bounds, Bounds.Kind.fields, check_map, check_seq, check_field, List.map_cons,
      List.map_nil, all_cons, all_nil, both_assoc, both_ok] <;> rfl

theorem check_command (kind : Command.Kind) :
    (ms.command kind).check = all (kind.fields.map (·.check ms)) := by
  cases kind <;>
    simp only [command, Command.Kind.fields, check_map, check_seq, check_field, check_fieldOr,
      check_bounds, check_ok, List.map_append, List.map_cons, List.map_nil, all_append, all_cons,
      all_nil, both_assoc, both_ok] <;> rfl

section
variable {κ : Type} {ofTag? : Text → Option κ} {tag : κ → Text} {read : κ → Reading α} {t : Text}
  {r : Roles}

/-- A node with the tag of a kind is read by the fields of the kind. -/
theorem check_tagged {table : κ → List Field} {fields : List Field}
    (hread : ∀ kind, (read kind).check = all ((table kind).map (·.check ms)))
    (htag : ∀ kind, ofTag? t = some kind → tag kind = t) (htype : Json.member? "type" ms = some r)
    (ht : r.tag = some t) (hfields : (ofTag? t).map table = some fields) :
    (ms.tagged ofTag? tag read).check = (all (fields.map (·.check ms))).beneath (.key t) := by
  obtain ⟨kind, hkind, rfl⟩ := Option.map_eq_some_iff.mp hfields
  have hbind : r.tag.bind ofTag? = some kind := by rw [ht, Option.bind_some, hkind]
  simp only [tagged, htype, hbind, check_beneath, hread, htag kind hkind]

/-- What is accepted as a node has the tag of a kind, and so it has fields. -/
theorem exists_fields_of_tagged (table : κ → List Field)
    (h : (ms.tagged ofTag? tag read).check = ok ()) :
    ∃ r t fields, Json.member? "type" ms = some r ∧ r.tag = some t ∧
      (ofTag? t).map table = some fields := by
  rw [tagged] at h
  cases htype : Json.member? "type" ms with
  | none => rw [htype] at h; cases h
  | some r =>
    cases hkind : r.tag.bind ofTag? with
    | none => simp only [htype, hkind] at h; cases h
    | some kind =>
      obtain ⟨t, ht, hkind⟩ := Option.bind_eq_some_iff.mp hkind
      exact ⟨r, t, table kind, rfl, ht, by rw [hkind, Option.map_some]⟩

end

end Members

section
variable {κ : Type} {kinds : List κ} {tag : κ → Text} {t : Text}

theorem tag_of_find? {kind : κ} (h : kinds.find? (tag · = t) = some kind) : tag kind = t := by
  simpa using List.find?_some h

/-- It is enough to look at the kinds of a list. -/
theorem nodup_keys_of_find? {table : κ → List Field} {fields : List Field}
    (hall : ∀ kind ∈ kinds, (("type" : Text) :: (table kind).map Field.key).Nodup)
    (h : (kinds.find? (tag · = t)).map table = some fields) :
    (("type" : Text) :: fields.map Field.key).Nodup := by
  obtain ⟨kind, hkind, rfl⟩ := Option.map_eq_some_iff.mp h
  exact hall kind (List.mem_of_find?_eq_some hkind)

end

namespace Family

variable {family : Family} {ms : Members} {r : Roles} {t : Text} {fields : List Field}

/-- **A node is read field by field.** -/
theorem check_of_tag (htype : Json.member? "type" ms = some r) (ht : r.tag = some t)
    (hfields : family.fields? t = some fields) :
    family.check (.ofMembers ms) = (all (fields.map (·.check ms))).beneath (.key t) := by
  cases family with
  | command =>
    exact Members.check_tagged Members.check_command (fun _ => tag_of_find?) htype ht hfields
  | expr => exact Members.check_tagged Members.check_expr (fun _ => tag_of_find?) htype ht hfields
  | path => exact Members.check_tagged Members.check_path (fun _ => tag_of_find?) htype ht hfields

theorem exists_fields_of_check (h : family.check (.ofMembers ms) = .ok ()) :
    ∃ r t fields, Json.member? "type" ms = some r ∧ r.tag = some t ∧
      family.fields? t = some fields := by
  cases family with
  | command => exact Members.exists_fields_of_tagged Command.Kind.fields h
  | expr => exact Members.exists_fields_of_tagged Expr.Kind.fields h
  | path => exact Members.exists_fields_of_tagged Variable.Kind.fields h

/-- Items that are nodes of the family, from index `n` on. -/
def checkItems (family : Family) : (n : Nat) → List Roles → Reading Unit
  | _, [] => .ok ()
  | n, r :: rs => both ((family.check r).beneath (.index n)) (checkItems family (n + 1) rs)

theorem check_each {α : Type} {role : Roles → Reading α}
    (hrole : ∀ r, (role r).check = family.check r) (n : Nat) (rs : List Roles) :
    (Reading.each n (rs.map role)).check = family.checkItems n rs := by
  induction rs generalizing n with
  | nil => rfl
  | cons r rs ih =>
    rw [List.map_cons, Reading.each, check_seq, check_map, check_beneath, hrole, ih, checkItems]

theorem check_many (family : Family) (rs : List Roles) :
    (Shape.many family).check (.ofItems rs) = family.checkItems 0 rs := by
  cases family <;> exact check_each (fun _ => rfl) 0 rs

/-- The keys of a node are distinct, that of its tag among them. -/
theorem nodup_keys (hfields : family.fields? t = some fields) :
    (("type" : Text) :: fields.map Field.key).Nodup := by
  cases family with
  | command => exact nodup_keys_of_find? (by decide) hfields
  | expr => exact nodup_keys_of_find? (by decide) hfields
  | path => exact nodup_keys_of_find? (by decide) hfields

end Family

end ClearSilver
