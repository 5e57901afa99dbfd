/-
# Other values for the same tree

A value says no less about a tree if the keys of its objects come in another
order, other keys stand between them, or a field with a default is left out
while it holds it (`Json.Variant`). The keys of a node are distinct, so each
of its fields is still found under its key, or has been left out
(`Json.Shows`), and reading it gives the same (`Json.ReadsAs`), whatever the
library that validates values by the rules for roles.

Key definitions: `Json.default?`, `Json.Kept`, `Json.Variant`, `Json.Shows`,
`Json.ReadsAs`.
Key theorems: `Json.member?_eq_some`, `Json.member?_map`,
`Json.Variant.exists_members`, `Json.Shows.field`, `Json.Shows.fieldOr`, `Json.Shows.tagged`.
-/
import ClearSilver.Tree.Load
import Mathlib.Data.List.Nodup

namespace ClearSilver
namespace Json

/-- What a field holds when it is left out: a comment has no text then, a call
or a definition no arguments. Other fields are never left out. -/
def default? (k : Text) : Option Json :=
  if k = "text" then some null else if k = "arguments" then some (array []) else none

/-- The second members are the first in order, each with a value that `R`
allows, and without some that hold their default. -/
inductive Kept (R : Json → Json → Prop) : List (Text × Json) → List (Text × Json) → Prop
  | nil : Kept R [] []
  | keep {k : Text} {v w : Json} {ms ns : List (Text × Json)} (hv : R v w) (h : Kept R ms ns) :
      Kept R ((k, v) :: ms) ((k, w) :: ns)
  | leave {k : Text} {v : Json} {ms ns : List (Text × Json)} (hv : default? k = some v)
      (h : Kept R ms ns) : Kept R ((k, v) :: ms) ns

/-- The second value is the first, but for the order of the keys of its
objects, keys that the first does not have there, and fields that are left out
where they hold their default. -/
inductive Variant : Json → Json → Prop
  | same (v : Json) : Variant v v
  | array {vs ws : List Json} (h : List.Forall₂ Variant vs ws) : Variant (array vs) (array ws)
  | object {ms kept added ns : List (Text × Json)} (hkept : Kept Variant ms kept)
      (hadded : ∀ m ∈ added, m.1 ∉ ms.map Prod.fst) (hns : ns.Perm (kept ++ added)) :
      Variant (object ms) (object ns)

/-! ### Values under keys -/

section
variable {α : Type} {k : Text} {v : α}

theorem member?_eq_none : ∀ {ms : List (Text × α)}, k ∉ ms.map Prod.fst → member? k ms = none
  | [], _ => rfl
  | (k', v) :: ms, h => by
    simp only [List.map_cons, List.mem_cons, not_or] at h
    rw [member?, member?_eq_none h.2]
    exact if_neg (Ne.symm h.1)

/-- The one value under a key. -/
theorem member?_eq_some : ∀ {ms : List (Text × α)}, (k, v) ∈ ms →
    (∀ w, (k, w) ∈ ms → w = v) → member? k ms = some v
  | (k', v') :: ms, hmem, hone => by
    by_cases hlater : ∃ w, (k, w) ∈ ms
    · obtain ⟨w, hw⟩ := hlater
      rw [hone w (List.mem_cons_of_mem _ hw)] at hw
      rw [member?, member?_eq_some hw fun u hu => hone u (List.mem_cons_of_mem _ hu)]
    · have hnone : member? k ms = none := by
        apply member?_eq_none
        intro hk
        obtain ⟨m, hm, rfl⟩ := List.mem_map.mp hk
        exact hlater ⟨m.2, hm⟩
      obtain heq | hmem := List.mem_cons.mp hmem
      · cases heq
        rw [member?, hnone]
        exact if_pos rfl
      · exact absurd ⟨v, hmem⟩ hlater

/-- The value of a key may be changed before it is looked up, or after. -/
theorem member?_map {α β : Type} (f : α → β) (k : Text) (ms : List (Text × α)) :
    member? k (ms.map fun m => (m.1, f m.2)) = (member? k ms).map f := by
  induction ms with
  | nil => rfl
  | cons m ms ih =>
    obtain ⟨k', v⟩ := m
    rw [List.map_cons, member?, member?, ih]
    cases member? k ms with
    | some w => rfl
    | none =>
      simp only [Option.map_none]
      split <;> rfl

theorem member?_members (lib : JsonLibrary) (k : Text) (ms : List (Text × Json)) :
    member? k (lib.members ms) = (member? k ms).map lib.roles :=
  member?_map lib.roles k ms

end

namespace Kept

variable {R : Json → Json → Prop} {ms ns : List (Text × Json)} {k : Text} {v : Json}

theorem keys_sublist (h : Kept R ms ns) : (ns.map Prod.fst).Sublist (ms.map Prod.fst) := by
  induction h with
  | nil => exact .slnil
  | keep _ _ ih => exact ih.cons_cons _
  | leave _ _ ih => exact ih.cons _

theorem same (hR : ∀ v, R v v) (ms : List (Text × Json)) : Kept R ms ms := by
  induction ms with
  | nil => exact .nil
  | cons m ms ih => exact .keep (hR m.2) ih

/-- A member of the first is kept, or left out with its default. -/
theorem of_mem (h : Kept R ms ns) (hkeys : (ms.map Prod.fst).Nodup) (hmem : (k, v) ∈ ms) :
    (∃ w, (k, w) ∈ ns ∧ R v w) ∨ (default? k = some v ∧ k ∉ ns.map Prod.fst) := by
  induction h with
  | nil => cases hmem
  | keep hv h ih =>
    rw [List.map_cons, List.nodup_cons] at hkeys
    obtain heq | hmem := List.mem_cons.mp hmem
    · cases heq
      exact .inl ⟨_, List.mem_cons_self, hv⟩
    · obtain ⟨w, hw, hR⟩ | ⟨hdefault, hleft⟩ := ih hkeys.2 hmem
      · exact .inl ⟨w, List.mem_cons_of_mem _ hw, hR⟩
      · refine .inr ⟨hdefault, ?_⟩
        rw [List.map_cons, List.mem_cons, not_or]
        exact ⟨fun heq => hkeys.1 (heq ▸ List.mem_map_of_mem hmem), hleft⟩
  | leave hv h ih =>
    rw [List.map_cons, List.nodup_cons] at hkeys
    obtain heq | hmem := List.mem_cons.mp hmem
    · cases heq
      exact .inr ⟨hv, fun hk => hkeys.1 (h.keys_sublist.subset hk)⟩
    · exact ih hkeys.2 hmem

end Kept

/-- The members `ns` have this one, with a variant of its value, or they have
none under its key and it holds its default. -/
def Shows (ns : List (Text × Json)) (k : Text) (v : Json) : Prop :=
  (∃ w, member? k ns = some w ∧ Variant v w) ∨ (default? k = some v ∧ member? k ns = none)

namespace Variant

variable {vs : List Json} {ms : List (Text × Json)} {t : Text} {w : Json}

theorem string_eq (h : Variant (Json.string t) w) : w = Json.string t := by
  cases h
  rfl

theorem integer_eq {n : Int} (h : Variant (Json.integer n) w) : w = Json.integer n := by
  cases h
  rfl

theorem null_eq (h : Variant Json.null w) : w = Json.null := by
  cases h
  rfl

theorem exists_items (h : Variant (Json.array vs) w) :
    ∃ ws, w = Json.array ws ∧ List.Forall₂ Variant vs ws := by
  cases h with
  | same => exact ⟨vs, rfl, List.forall₂_same.mpr fun v _ => .same v⟩
  | array h => exact ⟨_, rfl, h⟩

/-- **The fields of a node are still there.** -/
theorem exists_members (h : Variant (Json.object ms) w) (hkeys : (ms.map Prod.fst).Nodup) :
    ∃ ns, w = Json.object ns ∧ ∀ m ∈ ms, Shows ns m.1 m.2 := by
  obtain ⟨kept, added, ns, rfl, hkept, hadded, hns⟩ : ∃ kept added ns, w = Json.object ns ∧
      Kept Variant ms kept ∧ (∀ m ∈ added, m.1 ∉ ms.map Prod.fst) ∧ ns.Perm (kept ++ added) := by
    cases h with
    | same => exact ⟨ms, [], ms, rfl, .same .same ms, by simp, by simp⟩
    | object hkept hadded hns => exact ⟨_, _, _, rfl, hkept, hadded, hns⟩
  refine ⟨ns, rfl, ?_⟩
  rintro ⟨k, v⟩ hm
  have hfrom : ∀ u, (k, u) ∈ ns → (k, u) ∈ kept := by
    intro u hu
    obtain hu | hu := List.mem_append.mp (hns.mem_iff.mp hu)
    · exact hu
    · exact absurd (List.mem_map_of_mem hm) (hadded (k, u) hu)
  obtain ⟨w, hw, hv⟩ | ⟨hdefault, hleft⟩ := hkept.of_mem hkeys hm
  · refine .inl ⟨w, member?_eq_some (hns.mem_iff.mpr (List.mem_append_left _ hw)) ?_, hv⟩
    intro u hu
    have hone := List.inj_on_of_nodup_map (hkeys.sublist hkept.keys_sublist) (hfrom u hu) hw rfl
    exact congrArg Prod.snd hone
  · refine .inr ⟨hdefault, member?_eq_none fun hk => ?_⟩
    obtain ⟨⟨k', u⟩, hu, rfl⟩ := List.mem_map.mp hk
    exact hleft (List.mem_map_of_mem (f := Prod.fst) (hfrom u hu))

end Variant

/-! ### Reading the fields -/

/-- Whatever variant of the value is read in the role, `a` is what it gives. -/
def ReadsAs {α : Type} (lib : JsonLibrary) (role : Roles → Reading α) (v : Json) (a : α) : Prop :=
  ∀ w, Variant v w → role (lib.roles w) = .ok a

section
variable {α κ : Type} {lib : JsonLibrary} {ns ms : List (Text × Json)} {k : Text} {v : Json} {a : α}
  {role : Roles → Reading α}

/-- A field without a default is there to be read. -/
theorem Shows.field (h : Shows ns k v) (hv : default? k ≠ some v) (hrole : ReadsAs lib role v a) :
    (lib.members ns).field k role = .ok a := by
  obtain ⟨w, hw, hvw⟩ | ⟨hdefault, -⟩ := h
  · rw [Members.field, member?_members, hw]
    simp only [Option.map_some, hrole w hvw, Reading.beneath]
  · exact absurd hdefault hv

theorem Shows.required (h : Shows ns k v) (hk : default? k = none) (hrole : ReadsAs lib role v a) :
    (lib.members ns).field k role = .ok a := h.field (by simp [hk]) hrole

/-- A field that has been left out is read as its default. -/
theorem Shows.fieldOr {default : α} (h : Shows ns k v) (hv : default? k = some v → a = default)
    (hrole : ReadsAs lib role v a) : (lib.members ns).fieldOr k default role = .ok a := by
  obtain ⟨w, hw, hvw⟩ | ⟨hdefault, hnone⟩ := h
  · rw [Members.fieldOr, member?_members, hw]
    simp only [Option.map_some, hrole w hvw, Reading.beneath]
  · rw [Members.fieldOr, member?_members, hnone, hv hdefault]
    rfl

section
variable (hlib : lib.Validates)
include hlib

theorem tag_roles (v : Json) : (lib.roles v).tag = v.text? := by
  by_cases hv : v.isScalar
  · obtain ⟨text, optionalText, integer, h⟩ := hlib.roles_scalar v hv
    rw [h]
    rfl
  · cases v with
    | array vs =>
      rw [hlib.roles_array]
      rfl
    | object ms =>
      rw [hlib.roles_object]
      rfl
    | _ => exact absurd rfl hv

/-- A node is read as one of the kind that its tag names. -/
theorem Shows.tagged {ofTag? : Text → Option κ} {tag : κ → Text} {read : κ → Reading α} {kind : κ}
    (h : Shows ns "type" (string (tag kind))) (hkind : ofTag? (tag kind) = some kind)
    (hread : read kind = .ok a) : (lib.members ns).tagged ofTag? tag read = .ok a := by
  obtain ⟨w, hw, hvw⟩ | ⟨hdefault, -⟩ := h
  · obtain rfl := hvw.string_eq
    have htag : (lib.roles (string (tag kind))).tag.bind ofTag? = some kind := by
      rw [tag_roles hlib]
      exact hkind
    rw [Members.tagged, member?_members, hw]
    simp only [Option.map_some, htag, hread, Reading.beneath]
  · cases hdefault

/-- An object is read by its fields. -/
theorem readsAs_object (hkeys : (ms.map Prod.fst).Nodup)
    (hread : ∀ ns, ms.Forall (fun m => Shows ns m.1 m.2) →
      role (Roles.ofMembers (lib.members ns)) = .ok a) : ReadsAs lib role (object ms) a := by
  intro w hw
  obtain ⟨ns, rfl, hs⟩ := hw.exists_members hkeys
  rw [hlib.roles_object]
  exact hread ns (List.forall_iff_forall_mem.mpr hs)

theorem readsAs_text (t : Text) : ReadsAs lib (·.text) (string t) t := by
  intro w hw
  rw [hw.string_eq]
  exact hlib.text_string t

theorem readsAs_integer (n : Int) : ReadsAs lib (·.integer) (integer n) n := by
  intro w hw
  rw [hw.integer_eq]
  exact hlib.integer_integer n

end

/-- Items that are read one by one are read as a list. -/
theorem each_of_forall₂ {as : List α} {vs ws : List Json}
    (hread : List.Forall₂ (ReadsAs lib role) vs as) (hws : List.Forall₂ Variant vs ws) (n : Nat) :
    Reading.each n ((ws.map lib.roles).map role) = .ok as := by
  induction hread generalizing n ws with
  | nil =>
    cases hws
    rfl
  | cons hv _ ih =>
    cases hws with
    | cons hw hws =>
      rw [List.map_cons, List.map_cons, Reading.each, hv _ hw, ih hws]
      rfl

/-- A list is read by its items. -/
theorem readsAs_array (hlib : lib.Validates) {all : Roles → Reading (List α)} {vs : List Json}
    {as : List α} (hall : ∀ rs, all (Roles.ofItems rs) = Reading.each 0 (rs.map role))
    (hread : List.Forall₂ (ReadsAs lib role) vs as) : ReadsAs lib all (array vs) as := by
  intro w hw
  obtain ⟨ws, rfl, hws⟩ := hw.exists_items
  rw [hlib.roles_array, hall]
  exact each_of_forall₂ hread hws 0

/-- Arguments that are left out are none. -/
theorem Shows.arguments {vs : List Json} {as : List α} (h : Shows ns "arguments" (array vs))
    (hlib : lib.Validates) (all : Roles → Reading (List α))
    (hall : ∀ rs, all (Roles.ofItems rs) = Reading.each 0 (rs.map role))
    (hread : List.Forall₂ (ReadsAs lib role) vs as) :
    (lib.members ns).fieldOr "arguments" [] all = .ok as := by
  refine h.fieldOr (fun hdefault => ?_) (readsAs_array hlib hall hread)
  cases hread with
  | nil => rfl
  | cons _ _ => cases hdefault

end

end Json
end ClearSilver
