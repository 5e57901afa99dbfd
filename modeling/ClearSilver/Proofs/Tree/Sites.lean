/-
# Where the nodes of a value stand

A value that is read as a node holds further nodes in the fields of its kind,
and so on down. Each has a place, the route of keys and indices to it, and its
faults are reported under the route with the tags of the nodes on the way. The
sites of a value are these places in the order in which its parts are read:
a node before its fields, the fields in order, the items of a list in order.

At every site of a value that is accepted there is a node of the family that is
asked for there (`Json.exists_at_of_mem_sites`), and no place is a site twice
(`Json.nodup_routes`).

Key definitions: `Site`, `Json.sites`, `Json.at?`.
Key theorems: `Json.parts_induction`, `Json.exists_at_of_mem_sites`,
`Json.nodup_routes`.
-/
import ClearSilver.Proofs.Json.Variants
import ClearSilver.Proofs.Tree.Schema

namespace ClearSilver

open Reading

/-! ### Sites -/

/-- A place in a value where a node stands. -/
structure Site where
  /-- The keys and indices that lead to it. -/
  route : List Place
  /-- The route with the tags of the nodes on the way. -/
  path : List Place
  family : Family
deriving DecidableEq

namespace Site

/-- A site of a part as a site of the whole. -/
def behind (step : Place) (s : Site) : Site :=
  { s with route := step :: s.route, path := step :: s.path }

/-- A site in a node as one in a node with a tag. -/
def tagged (tag : Text) (s : Site) : Site := { s with path := .key tag :: s.path }

end Site

/-- The value itself as a site. -/
def Shape.here : Shape → List Site
  | one family => [⟨[], [], family⟩]
  | many _ => []

/-- The sites of the value in a field. -/
def Field.inside (field : Field) (ms : List (Text × (Shape → List Site))) : List Site :=
  match field.content, Json.member? field.key ms with
  | .nodes shape, some sites => sites shape
  | _, _ => []

/-- The sites in a field. -/
def Field.sites (field : Field) (ms : List (Text × (Shape → List Site))) : List Site :=
  (field.inside ms).map (.behind (.key field.key))

/-- The sites in the items of a list, from index `n` on. -/
def Family.sitesOfItems (family : Family) : (n : Nat) → List (Shape → List Site) → List Site
  | _, [] => []
  | n, sites :: more =>
    (sites (.one family)).map (.behind (.index n)) ++ sitesOfItems family (n + 1) more

/-- The sites in the fields of a node with a tag. -/
def Family.sitesOfFields (family : Family) (tag : Option Text)
    (ms : List (Text × (Shape → List Site))) : List Site :=
  match tag with
  | none => []
  | some t =>
    match family.fields? t with
    | none => []
    | some fields => (fields.flatMap (·.sites ms)).map (.tagged t)

namespace Json

mutual

/-- The sites below a value that is read in a shape: those in its fields, in
the order of the fields, or in its items. -/
def sitesBelow : Json → Shape → List Site
  | array vs, .many family => family.sitesOfItems 0 (sitesOfItems vs)
  | object ms, .one family =>
    family.sitesOfFields ((member? "type" ms).bind text?) (sitesOfMembers ms)
  | _, _ => []

def sitesOfItems : List Json → List (Shape → List Site)
  | [] => []
  | v :: vs => (fun shape => shape.here ++ v.sitesBelow shape) :: sitesOfItems vs

def sitesOfMembers : List (Text × Json) → List (Text × (Shape → List Site))
  | [] => []
  | (k, v) :: ms => (k, fun shape => shape.here ++ v.sitesBelow shape) :: sitesOfMembers ms

end

/-- The sites of a value that is read in a shape, itself first if it is one. -/
def sites (v : Json) (shape : Shape) : List Site := shape.here ++ v.sitesBelow shape

end Json

/-! ### Induction on the parts of a value -/

namespace Json

/-- What holds of a list or an object if it holds of its parts, and of the
values without parts, holds of every value. -/
theorem parts_induction {P : Json → Prop} (array : ∀ vs, (∀ v ∈ vs, P v) → P (array vs))
    (object : ∀ ms : List (Text × Json), (∀ m ∈ ms, P m.2) → P (object ms))
    (scalar : ∀ v, v.isScalar = true → P v) (v : Json) : P v :=
  @Json.rec P (fun vs => ∀ v ∈ vs, P v) (fun ms => ∀ m ∈ ms, P m.2) (fun m => P m.2)
    (scalar _ rfl) (fun _ => scalar _ rfl) (fun _ => scalar _ rfl) (fun _ _ => scalar _ rfl)
    (fun _ => scalar _ rfl) (fun _ => scalar _ rfl) array object
    (List.forall_mem_nil _) (fun _ _ hv hvs => List.forall_mem_cons.mpr ⟨hv, hvs⟩)
    (List.forall_mem_nil _) (fun _ _ hm hms => List.forall_mem_cons.mpr ⟨hm, hms⟩)
    (fun _ _ hv => hv) v

/-! ### Values under keys -/

theorem mem_of_member? {α : Type} {k : Text} {v : α} : ∀ {ms : List (Text × α)},
    member? k ms = some v → (k, v) ∈ ms
  | (k', v') :: ms, h => by
    rw [member?] at h
    cases hlater : member? k ms with
    | some w =>
      simp only [hlater, Option.some.injEq] at h
      exact List.mem_cons_of_mem _ (mem_of_member? (hlater.trans (congrArg some h)))
    | none =>
      simp only [hlater, Option.ite_none_right_eq_some, Option.some.injEq] at h
      obtain ⟨rfl, rfl⟩ := h
      exact List.mem_cons_self

theorem member?_sitesOfMembers (k : Text) (ms : List (Text × Json)) :
    member? k (sitesOfMembers ms) = (member? k ms).map sites := by
  have hmap : sitesOfMembers ms = ms.map fun m => (m.1, m.2.sites) := by
    induction ms with
    | nil => rfl
    | cons m ms ih =>
      rw [sitesOfMembers, ih, List.map_cons]
      rfl
  rw [hmap, member?_map]

/-! ### Sites of a part -/

theorem exists_field_of_mem {s : Site} {t : Text} {fields : List Field}
    {ms : List (Text × (Shape → List Site))}
    (h : s ∈ (fields.flatMap (·.sites ms)).map (.tagged t)) :
    ∃ field ∈ fields, ∃ s' ∈ field.inside ms, s = (s'.behind (.key field.key)).tagged t := by
  obtain ⟨s₁, hs₁, rfl⟩ := List.mem_map.mp h
  obtain ⟨field, hfield, hs₁⟩ := List.mem_flatMap.mp hs₁
  obtain ⟨s', hs', rfl⟩ := List.mem_map.mp hs₁
  exact ⟨field, hfield, s', hs', rfl⟩

theorem exists_item_of_mem {family : Family} {s : Site} : ∀ {n : Nat} {vs : List Json},
    s ∈ family.sitesOfItems n (sitesOfItems vs) →
      ∃ (i : Nat) (v : Json), vs[i]? = some v ∧
        ∃ s' ∈ v.sites (.one family), s = s'.behind (.index (n + i))
  | n, v :: vs, h => by
    rw [sitesOfItems, Family.sitesOfItems, List.mem_append] at h
    obtain h | h := h
    · obtain ⟨s', hs', rfl⟩ := List.mem_map.mp h
      exact ⟨0, v, rfl, s', hs', rfl⟩
    · obtain ⟨i, w, hw, s', hs', rfl⟩ := exists_item_of_mem h
      exact ⟨i + 1, w, hw, s', hs', by rw [Nat.add_assoc, Nat.add_comm 1]⟩

theorem route_ne_nil {v : Json} {shape : Shape} {s : Site} (h : s ∈ v.sitesBelow shape) :
    s.route ≠ [] := by
  cases v with
  | array vs =>
    cases shape with
    | one family => cases h
    | many family =>
      obtain ⟨i, v, -, s', -, rfl⟩ := exists_item_of_mem h
      exact List.cons_ne_nil _ _
  | object ms =>
    cases shape with
    | one family =>
      simp only [sitesBelow, Family.sitesOfFields] at h
      split at h
      · cases h
      · split at h
        · cases h
        · obtain ⟨field, -, s', -, rfl⟩ := exists_field_of_mem h
          exact List.cons_ne_nil _ _
    | many family => cases h
  | _ => cases shape <;> cases h

/-! ### What stands at a site -/

/-- The part under a key or an index. -/
def part? : Json → Place → Option Json
  | object ms, .key k => member? k ms
  | array vs, .index n => vs[n]?
  | _, _ => none

/-- The value at the end of a route. -/
def at? (v : Json) : List Place → Option Json
  | [] => some v
  | step :: route => (v.part? step).bind (·.at? route)

/-! ### No site is listed twice -/

theorem nodup_map_behind {sites : List Site} (step : Place)
    (h : (sites.map Site.route).Nodup) : ((sites.map (.behind step)).map Site.route).Nodup := by
  rw [List.map_map]
  have hroute : Site.route ∘ Site.behind step = (step :: ·) ∘ Site.route := rfl
  rw [hroute, ← List.map_map]
  exact h.map (List.cons_injective)

theorem nodup_sitesOfItems {family : Family} : ∀ {vs : List Json} (n : Nat),
    (∀ v ∈ vs, ((v.sites (.one family)).map Site.route).Nodup) →
    ((family.sitesOfItems n (sitesOfItems vs)).map Site.route).Nodup
  | [], _, _ => List.nodup_nil
  | v :: vs, n, h => by
    rw [List.forall_mem_cons] at h
    rw [sitesOfItems, Family.sitesOfItems, List.map_append, List.nodup_append]
    refine ⟨nodup_map_behind (.index n) h.1, nodup_sitesOfItems (n + 1) h.2, ?_⟩
    intro route hroute route' hroute'
    obtain ⟨s, hs, rfl⟩ := List.mem_map.mp hroute
    obtain ⟨s', hs', rfl⟩ := List.mem_map.mp hroute'
    obtain ⟨s, -, rfl⟩ := List.mem_map.mp hs
    obtain ⟨i, v, -, s', -, rfl⟩ := exists_item_of_mem hs'
    intro hsame
    injection hsame with hstep
    injection hstep with hindex
    omega

theorem nodup_sitesOfFields {ms : List (Text × (Shape → List Site))} :
    ∀ {fields : List Field}, (fields.map Field.key).Nodup →
    (∀ field ∈ fields, ((field.inside ms).map Site.route).Nodup) →
    ((fields.flatMap (·.sites ms)).map Site.route).Nodup
  | [], _, _ => List.nodup_nil
  | field :: fields, hkeys, h => by
    rw [List.forall_mem_cons] at h
    rw [List.map_cons, List.nodup_cons] at hkeys
    rw [List.flatMap_cons, List.map_append, List.nodup_append]
    refine ⟨nodup_map_behind _ h.1, nodup_sitesOfFields hkeys.2 h.2, ?_⟩
    intro route hroute route' hroute'
    obtain ⟨s, hs, rfl⟩ := List.mem_map.mp hroute
    obtain ⟨s', hs', rfl⟩ := List.mem_map.mp hroute'
    obtain ⟨s, -, rfl⟩ := List.mem_map.mp hs
    obtain ⟨field', hfield', hs'⟩ := List.mem_flatMap.mp hs'
    obtain ⟨s', -, rfl⟩ := List.mem_map.mp hs'
    intro hsame
    injection hsame with hstep
    injection hstep with hkey
    exact hkeys.1 (hkey ▸ List.mem_map_of_mem hfield')

/-- The value itself has the empty route, and no site below it has. -/
theorem nodup_routes_of_below {v : Json} {shape : Shape}
    (hbelow : ((v.sitesBelow shape).map Site.route).Nodup) :
    ((v.sites shape).map Site.route).Nodup := by
  cases shape with
  | many family => exact hbelow
  | one family =>
    refine List.nodup_cons.mpr ⟨fun hroot => ?_, hbelow⟩
    obtain ⟨s, hs, hroute⟩ := List.mem_map.mp hroot
    exact route_ne_nil hs hroute

/-! ### Accepted values -/

section
variable {lib : JsonLibrary}

/-- A field that is right holds nodes of some shape, or no sites at all. -/
theorem inside_eq_sites {field : Field} {ms : List (Text × Json)}
    (hcheck : field.check (lib.members ms) = .ok ()) :
    field.inside (sitesOfMembers ms) = [] ∨ ∃ shape v, member? field.key ms = some v ∧
      shape.check (lib.roles v) = .ok () ∧ field.inside (sitesOfMembers ms) = v.sites shape := by
  simp only [Field.check, member?_members, Field.inside, member?_sitesOfMembers] at hcheck ⊢
  cases hcontent : field.content with
  | plain role => exact .inl rfl
  | nodes shape =>
    cases hv : member? field.key ms with
    | none => exact .inl rfl
    | some v =>
      simp only [hv, hcontent, Option.map_some, beneath_eq_ok] at hcheck
      exact .inr ⟨shape, v, rfl, hcheck, rfl⟩

theorem checkItems_eq_ok {family : Family} {n : Nat} {vs : List Json} :
    family.checkItems n (vs.map lib.roles) = .ok () ↔
      ∀ v ∈ vs, family.check (lib.roles v) = .ok () := by
  induction vs generalizing n with
  | nil => simp [Family.checkItems]
  | cons v vs ih =>
    rw [List.map_cons, Family.checkItems, both_eq_ok, beneath_eq_ok, ih, List.forall_mem_cons]

variable (hlib : lib.Validates)
include hlib

/-- A value without parts is no node and no list of nodes. -/
theorem check_of_isScalar {v : Json} (h : v.isScalar = true) (shape : Shape) :
    shape.check (lib.roles v) ≠ .ok () := by
  obtain ⟨text, optionalText, integer, hroles⟩ := hlib.roles_scalar v h
  rw [hroles]
  obtain family | family := shape <;> cases family <;> exact fun h => by cases h

/-- A list is accepted as a list of nodes, item by item. -/
theorem exists_items_of_check {vs : List Json} {shape : Shape}
    (h : shape.check (lib.roles (array vs)) = .ok ()) :
    ∃ family, shape = .many family ∧ family.checkItems 0 (vs.map lib.roles) = .ok () := by
  rw [hlib.roles_array] at h
  cases shape with
  | one family => cases family <;> cases h
  | many family =>
    rw [Family.check_many] at h
    exact ⟨family, rfl, h⟩

/-- An object that is accepted has the fields of a kind, all of them right, and
its sites are in these. -/
theorem exists_fields_of_check {ms : List (Text × Json)} {shape : Shape}
    (h : shape.check (lib.roles (object ms)) = .ok ()) :
    ∃ family w t fields, shape = .one family ∧ member? "type" ms = some w ∧ w.text? = some t ∧
      family.fields? t = some fields ∧
      (∀ field ∈ fields, field.check (lib.members ms) = .ok ()) ∧
      (object ms).sitesBelow (.one family) =
        (fields.flatMap (·.sites (sitesOfMembers ms))).map (.tagged t) := by
  rw [hlib.roles_object] at h
  cases shape with
  | many family => cases family <;> cases h
  | one family =>
    obtain ⟨r, t, fields, htype, ht, hfields⟩ := Family.exists_fields_of_check h
    have hcheck := Family.check_of_tag htype ht hfields
    rw [Shape.check, hcheck, beneath_eq_ok, all_eq_ok] at h
    rw [member?_members] at htype
    obtain ⟨w, hw, rfl⟩ := Option.map_eq_some_iff.mp htype
    rw [tag_roles hlib] at ht
    refine ⟨family, w, t, fields, rfl, hw, ht, hfields,
      fun f hf => h _ (List.mem_map_of_mem hf), ?_⟩
    simp only [sitesBelow, Family.sitesOfFields, hw, Option.bind_some, ht, hfields]

/-- **At a site of an accepted value stands a node of its family.** -/
theorem exists_at_of_mem_sites {v : Json} {shape : Shape} {s : Site}
    (hcheck : shape.check (lib.roles v) = .ok ()) (hs : s ∈ v.sites shape) :
    ∃ w, v.at? s.route = some w ∧ s.family.check (lib.roles w) = .ok () := by
  induction v using parts_induction generalizing shape s with
  | scalar v hv => exact absurd hcheck (check_of_isScalar hlib hv shape)
  | array vs ih =>
    obtain ⟨family, rfl, hitems⟩ := exists_items_of_check hlib hcheck
    obtain ⟨i, v, hv, s', hs', rfl⟩ := exists_item_of_mem hs
    have hmem := List.mem_of_getElem? hv
    have hitem : (Shape.one family).check (lib.roles v) = .ok () :=
      checkItems_eq_ok.mp hitems v hmem
    obtain ⟨w, hw, hfamily⟩ := ih v hmem hitem hs'
    refine ⟨w, ?_, hfamily⟩
    rw [Site.behind, Nat.zero_add, at?, part?, hv, Option.bind_some, hw]
  | object ms ih =>
    obtain ⟨family, w, t, fields, rfl, -, -, -, hfields, hbelow⟩ :=
      exists_fields_of_check hlib hcheck
    obtain hs | hs := List.mem_append.mp hs
    · obtain rfl := List.mem_singleton.mp hs
      exact ⟨object ms, rfl, hcheck⟩
    · rw [hbelow] at hs
      obtain ⟨field, hfield, s', hs', rfl⟩ := exists_field_of_mem hs
      obtain hnone | ⟨shape, v, hv, hcheck, hinside⟩ := inside_eq_sites (hfields field hfield)
      · rw [hnone] at hs'
        cases hs'
      rw [hinside] at hs'
      obtain ⟨w, hw, hfamily⟩ := ih _ (mem_of_member? hv) hcheck hs'
      refine ⟨w, ?_, hfamily⟩
      rw [Site.tagged, Site.behind, at?, part?, hv, Option.bind_some, hw]

/-- **Each place is a site once.** -/
theorem nodup_routes {v : Json} {shape : Shape} (hcheck : shape.check (lib.roles v) = .ok ()) :
    ((v.sites shape).map Site.route).Nodup := by
  induction v using parts_induction generalizing shape with
  | scalar v hv => exact absurd hcheck (check_of_isScalar hlib hv shape)
  | array vs ih =>
    obtain ⟨family, rfl, hitems⟩ := exists_items_of_check hlib hcheck
    refine nodup_routes_of_below (nodup_sitesOfItems 0 fun v hv => ?_)
    have hitem : (Shape.one family).check (lib.roles v) = .ok () := checkItems_eq_ok.mp hitems v hv
    exact ih v hv hitem
  | object ms ih =>
    obtain ⟨family, -, t, fields, rfl, -, -, hkind, hfields, hbelow⟩ :=
      exists_fields_of_check hlib hcheck
    refine nodup_routes_of_below ?_
    have hroute : Site.route ∘ Site.tagged t = Site.route := rfl
    rw [hbelow, List.map_map, hroute]
    refine nodup_sitesOfFields (List.nodup_cons.mp (Family.nodup_keys hkind)).2 ?_
    intro field hfield
    obtain hnone | ⟨shape, v, hv, hcheck, hinside⟩ := inside_eq_sites (hfields field hfield)
    · rw [hnone]
      exact List.nodup_nil
    · rw [hinside]
      exact ih _ (mem_of_member? hv) hcheck

end

end Json

end ClearSilver
