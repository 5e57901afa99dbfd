/-
# Faults of a changed tree

In a value that is accepted as a node, other values stand in the place of some
of its nodes, none of these below another. What is read is then wrong exactly
where a new value is no node of the family that is asked for at its place, and
the faults are those of the new values on their own, in the order of the
places, each under the path of keys, tags and indices to its place
(`Json.check_replaced`, `JsonLibrary.load_replaced`), unless the whole goes beyond
the limits of the reader: then it is not read at all.

The proof is by induction on the value that was accepted: a field or an item
that is not touched is accepted as before, and in the others the new values
are put at sites of the part.

Key definitions: `Replacement`, `Json.replaced`, `Replacement.Fits`,
`Replacement.outcome`, `Site.faults`, `JsonLibrary.LoadsAt`.
Key theorems: `Json.at?_replaced`, `Json.check_replaced`, `JsonLibrary.load_replaced`.
-/
import ClearSilver.Proofs.Tree.Load
import ClearSilver.Proofs.Tree.Sites

namespace ClearSilver

open Reading

/-! ### Replacements -/

/-- Values to be put in the place of others, by the routes to these. -/
abbrev Replacement := List Place → Option Json

/-- The replacement in a part. -/
def Replacement.part (σ : Replacement) (step : Place) : Replacement :=
  fun route => σ (step :: route)

theorem Replacement.part_of_none {σ : Replacement} (h : ∀ route, σ route = none) (step : Place) :
    ∀ route, σ.part step route = none := fun route => h (step :: route)

namespace Json

mutual

/-- The value with others in the place of some of its parts. Of members with one
key only the last counts, and only it is changed. -/
def replaced : Json → Replacement → Json
  | array vs, σ => (σ []).getD (array (replacedItems vs 0 σ))
  | object ms, σ => (σ []).getD (object (replacedMembers ms σ))
  | v, σ => (σ []).getD v

def replacedItems : List Json → (n : Nat) → Replacement → List Json
  | [], _, _ => []
  | v :: vs, n, σ => v.replaced (σ.part (.index n)) :: replacedItems vs (n + 1) σ

def replacedMembers : List (Text × Json) → Replacement → List (Text × Json)
  | [], _ => []
  | (k, v) :: ms, σ =>
    (k, if (member? k ms).isSome then v else v.replaced (σ.part (.key k))) :: replacedMembers ms σ

end

end Json

/-- No new value stands below another. -/
def Replacement.Disjoint (σ : Replacement) : Prop :=
  ∀ route more, (σ route).isSome → (σ (route ++ more)).isSome → more = []

/-- The new values stand at sites, none below another. -/
structure Replacement.Fits (σ : Replacement) (sites : List Site) : Prop where
  at_sites : ∀ route, (σ route).isSome → ∃ s ∈ sites, s.route = route
  disjoint : σ.Disjoint

/-- The replacement that a list of routes with new values gives. -/
def Replacement.ofList (news : List (List Place × Json)) : Replacement := fun route =>
  (news.find? (·.1 = route)).map Prod.snd

/-- Whether the routes of a list are apart can be decided. -/
theorem Replacement.fits_ofList {news : List (List Place × Json)} {sites : List Site}
    (hat : ∀ route ∈ news.map Prod.fst, ∃ s ∈ sites, s.route = route)
    (hapart : ∀ route ∈ news.map Prod.fst, ∀ longer ∈ news.map Prod.fst, route <+: longer →
      route = longer) : (ofList news).Fits sites := by
  have hmem : ∀ route, (ofList news route).isSome → route ∈ news.map Prod.fst := by
    intro route hsome
    rw [ofList, Option.isSome_map, List.find?_isSome] at hsome
    obtain ⟨new, hnew, hroute⟩ := hsome
    exact List.mem_map.mpr ⟨new, hnew, of_decide_eq_true hroute⟩
  refine ⟨fun route hsome => hat route (hmem route hsome), fun route more hroute hmore => ?_⟩
  have hsame := hapart route (hmem _ hroute) _ (hmem _ hmore) (List.prefix_append _ _)
  exact List.append_right_eq_self.mp hsame.symm

/-- What the new value at a site comes to: its faults are under the path to the
site. All is well where there is no new value. -/
def Site.outcome (s : Site) (lib : JsonLibrary) (σ : Replacement) : Reading Unit :=
  match σ s.route with
  | none => .ok ()
  | some v => (s.family.check (lib.roles v)).under s.path

/-- What the new values at some sites come to. -/
def Replacement.outcome (σ : Replacement) (lib : JsonLibrary) (sites : List Site) : Reading Unit :=
  all (sites.map (·.outcome lib σ))

/-! ### What is not touched -/

namespace Json

/-- The member under a key is changed by what is put into it. -/
theorem member?_replacedMembers (k : Text) (σ : Replacement) (ms : List (Text × Json)) :
    member? k (replacedMembers ms σ) = (member? k ms).map (·.replaced (σ.part (.key k))) := by
  induction ms with
  | nil => rfl
  | cons m ms ih =>
    obtain ⟨k', v⟩ := m
    rw [replacedMembers, member?, member?, ih]
    cases hlater : member? k ms with
    | some w => rfl
    | none =>
      by_cases hk : k' = k
      · subst hk
        simp only [Option.map_none, hlater, Option.isSome_none, Bool.false_eq_true, if_false,
          if_true, Option.map_some]
      · simp only [Option.map_none, if_neg hk]

mutual

/-- Where nothing is put, nothing changes. -/
theorem replaced_of_none : ∀ (v : Json) {σ : Replacement}, (∀ route, σ route = none) →
    v.replaced σ = v
  | array vs, σ, h => by
    rw [replaced, h, Option.getD_none, replacedItems_of_none vs 0 h]
  | object ms, σ, h => by
    rw [replaced, h, Option.getD_none, replacedMembers_of_none ms h]
  | null, σ, h | bool _, σ, h | integer _, σ, h | decimal _ _, σ, h | nonFinite _, σ, h
  | string _, σ, h => by
    simp only [replaced, h, Option.getD_none]

theorem replacedItems_of_none : ∀ (vs : List Json) (n : Nat) {σ : Replacement},
    (∀ route, σ route = none) → replacedItems vs n σ = vs
  | [], _, _, _ => rfl
  | v :: vs, n, σ, h => by
    rw [replacedItems, replaced_of_none v (Replacement.part_of_none h _),
      replacedItems_of_none vs (n + 1) h]

theorem replacedMembers_of_none : ∀ (ms : List (Text × Json)) {σ : Replacement},
    (∀ route, σ route = none) → replacedMembers ms σ = ms
  | [], _, _ => rfl
  | (k, v) :: ms, σ, h => by
    rw [replacedMembers, replaced_of_none v (Replacement.part_of_none h _), ite_self,
      replacedMembers_of_none ms h]

end

theorem getElem?_replacedItems (σ : Replacement) : ∀ (vs : List Json) (n i : Nat),
    (replacedItems vs n σ)[i]? = vs[i]?.map (·.replaced (σ.part (.index (n + i))))
  | [], _, _ => rfl
  | _ :: _, _, 0 => rfl
  | v :: vs, n, i + 1 => by
    rw [replacedItems, List.getElem?_cons_succ, List.getElem?_cons_succ,
      getElem?_replacedItems σ vs (n + 1) i, Nat.add_assoc, Nat.add_comm 1]

theorem replaced_of_some {v w : Json} {σ : Replacement} (h : σ [] = some w) : v.replaced σ = w := by
  cases v <;> simp only [replaced, h, Option.getD_some]

end Json

/-! ### New values in a part -/

namespace Replacement

variable {σ : Replacement} {step : Place}

theorem Disjoint.part (h : σ.Disjoint) (step : Place) : (σ.part step).Disjoint :=
  fun route more => h (step :: route) more

theorem Disjoint.eq_none_of_root (h : σ.Disjoint) (hroot : (σ []).isSome) {route : List Place}
    (hroute : route ≠ []) : σ route = none := by
  rw [← Option.not_isSome_iff_eq_none]
  exact fun hsome => hroute (h [] route hroot hsome)

theorem Fits.eq_none (h : σ.Fits []) (route : List Place) : σ route = none := by
  rw [← Option.not_isSome_iff_eq_none]
  intro hsome
  obtain ⟨s, hs, -⟩ := h.at_sites route hsome
  cases hs

/-- A replacement at sites of the whole is one at sites of a part in that part. -/
theorem Fits.of_part {sites part : List Site} (h : σ.Fits sites)
    (hpart : ∀ s ∈ sites, ∀ route, s.route = step :: route → ∃ s' ∈ part, s'.route = route) :
    (σ.part step).Fits part where
  at_sites route hsome := by
    obtain ⟨s, hs, hroute⟩ := h.at_sites (step :: route) hsome
    exact hpart s hs route hroute
  disjoint := h.disjoint.part step

/-- The new values in a field of a node are at sites of the value there. -/
theorem Fits.field {fields : List Field} {ms : List (Text × (Shape → List Site))} {t : Text}
    (h : σ.Fits ((fields.flatMap (·.sites ms)).map (.tagged t)))
    (hkeys : (fields.map Field.key).Nodup) {field : Field} (hfield : field ∈ fields) :
    (σ.part (.key field.key)).Fits (field.inside ms) := by
  refine h.of_part fun s hs route hroute => ?_
  obtain ⟨field', hfield', s', hs', rfl⟩ := Json.exists_field_of_mem hs
  injection hroute with hstep hroute
  injection hstep with hkey
  obtain rfl := List.inj_on_of_nodup_map hkeys hfield' hfield hkey
  exact ⟨s', hs', hroute⟩

/-- Under a key that is no field of a node nothing is new. -/
theorem Fits.beside {fields : List Field} {ms : List (Text × (Shape → List Site))} {t k : Text}
    (h : σ.Fits ((fields.flatMap (·.sites ms)).map (.tagged t))) (hk : k ∉ fields.map Field.key) :
    (σ.part (.key k)).Fits [] := by
  refine h.of_part fun s hs route hroute => ?_
  obtain ⟨field, hfield, s', -, rfl⟩ := Json.exists_field_of_mem hs
  injection hroute with hstep
  injection hstep with hkey
  exact absurd (hkey ▸ List.mem_map_of_mem hfield) hk

/-- Where the value itself is not replaced, the new values are below it. -/
theorem Fits.below {v : Json} {shape : Shape} (h : σ.Fits (v.sites shape)) (hroot : σ [] = none) :
    σ.Fits (v.sitesBelow shape) where
  at_sites route hsome := by
    obtain ⟨s, hs, rfl⟩ := h.at_sites route hsome
    obtain hs | hs := List.mem_append.mp hs
    · cases shape with
      | one family =>
        obtain rfl := List.mem_singleton.mp hs
        rw [hroot] at hsome
        cases hsome
      | many family => cases hs
    · exact ⟨s, hs, rfl⟩
  disjoint := h.disjoint

end Replacement

theorem Json.part?_replaced {σ : Replacement} (h : σ [] = none) (v : Json) (step : Place) :
    (v.replaced σ).part? step = (v.part? step).map (·.replaced (σ.part step)) := by
  cases v with
  | array vs =>
    rw [replaced, h, Option.getD_none]
    cases step with
    | key k => rfl
    | index n => rw [part?, part?, getElem?_replacedItems, Nat.zero_add]
  | object ms =>
    rw [replaced, h, Option.getD_none]
    cases step with
    | key k => exact member?_replacedMembers k σ ms
    | index n => rfl
  | _ =>
    simp only [replaced, h, Option.getD_none]
    rfl

/-- The new values stand where they are put. -/
theorem Json.at?_replaced {v w : Json} {σ : Replacement} {route : List Place}
    (hat : (v.at? route).isSome) (hroute : σ route = some w) (hdisjoint : σ.Disjoint) :
    (v.replaced σ).at? route = some w := by
  induction route generalizing v σ with
  | nil => rw [replaced_of_some hroute, at?]
  | cons step route ih =>
    have hroot : σ [] = none := by
      by_contra hsome
      rw [← ne_eq, Option.ne_none_iff_isSome] at hsome
      rw [hdisjoint.eq_none_of_root hsome (List.cons_ne_nil _ _)] at hroute
      cases hroute
    rw [at?] at hat ⊢
    cases hpart : v.part? step with
    | none =>
      rw [hpart] at hat
      cases hat
    | some u =>
      rw [hpart, Option.bind_some] at hat
      rw [part?_replaced hroot, hpart, Option.map_some, Option.bind_some]
      exact ih hat hroute (hdisjoint.part step)

namespace Replacement

variable (lib : JsonLibrary) (σ : Replacement)

theorem outcome_append (sites more : List Site) :
    σ.outcome lib (sites ++ more) = both (σ.outcome lib sites) (σ.outcome lib more) := by
  rw [outcome, List.map_append, all_append, outcome, outcome]

theorem outcome_flatMap {α : Type} (f : α → List Site) (xs : List α) :
    σ.outcome lib (xs.flatMap f) = all (xs.map fun x => σ.outcome lib (f x)) := by
  rw [outcome, List.map_flatMap, all_flatMap]
  rfl

theorem outcome_behind (step : Place) (sites : List Site) :
    σ.outcome lib (sites.map (.behind step)) = ((σ.part step).outcome lib sites).beneath step := by
  have hsite : ∀ s : Site,
      (s.behind step).outcome lib σ = (s.outcome lib (σ.part step)).beneath step := by
    intro s
    simp only [Site.outcome, Site.behind, part]
    cases σ (step :: s.route) <;> rfl
  simp only [outcome, beneath_all, List.map_map, Function.comp_def, hsite]

theorem outcome_tagged (tag : Text) (sites : List Site) :
    σ.outcome lib (sites.map (.tagged tag)) = (σ.outcome lib sites).beneath (.key tag) := by
  have hsite : ∀ s : Site, (s.tagged tag).outcome lib σ = (s.outcome lib σ).beneath (.key tag) := by
    intro s
    simp only [Site.outcome, Site.tagged]
    cases σ s.route <;> rfl
  simp only [outcome, beneath_all, List.map_map, Function.comp_def, hsite]

end Replacement

/-! ### The parts put together -/

namespace Json

variable {lib : JsonLibrary}

/-- The faults of the value with others put at its sites are those of the new
values, if it has none. -/
def ReplacesWell (lib : JsonLibrary) (v : Json) : Prop :=
  ∀ (shape : Shape) (σ : Replacement), shape.check (lib.roles v) = .ok () → σ.Fits (v.sites shape) →
    shape.check (lib.roles (v.replaced σ)) = σ.outcome lib (v.sites shape)

/-- A new value in the place of the whole is the only one. -/
theorem check_replaced_of_some {v w : Json} {shape : Shape} {σ : Replacement}
    (hroot : σ [] = some w) (hfits : σ.Fits (v.sites shape)) :
    shape.check (lib.roles (v.replaced σ)) = σ.outcome lib (v.sites shape) := by
  have hbelow : σ.outcome lib (v.sitesBelow shape) = .ok () := by
    rw [Replacement.outcome, all_eq_ok, List.forall_mem_map]
    intro s hs
    have hnone := hfits.disjoint.eq_none_of_root (by rw [hroot]; rfl) (route_ne_nil hs)
    simp only [Site.outcome, hnone]
  rw [sites, Replacement.outcome_append, hbelow, both_ok, replaced_of_some hroot]
  cases shape with
  | one family => simp [Shape.here, Replacement.outcome, Site.outcome, hroot, under, Shape.check]
  | many family =>
    -- A list is no site itself.
    obtain ⟨s, hs, hroute⟩ := hfits.at_sites [] (by rw [hroot]; rfl)
    exact absurd hroute (route_ne_nil hs)

/-- It is enough to look below the value, where no new value stands in its own
place. -/
theorem ReplacesWell.of_below {v : Json}
    (hbelow : ∀ (shape : Shape) (σ : Replacement), shape.check (lib.roles v) = .ok () →
      σ [] = none → σ.Fits (v.sitesBelow shape) →
      shape.check (lib.roles (v.replaced σ)) = σ.outcome lib (v.sitesBelow shape)) :
    ReplacesWell lib v := by
  intro shape σ hcheck hfits
  cases hroot : σ [] with
  | some w => exact check_replaced_of_some hroot hfits
  | none =>
    have hhere : σ.outcome lib shape.here = .ok () := by
      cases shape with
      | one family => simp [Shape.here, Replacement.outcome, Site.outcome, hroot]
      | many family => rfl
    rw [sites, Replacement.outcome_append, hhere,
      hbelow shape σ hcheck hroot (hfits.below hroot)]
    rfl

/-- A field is as right as the new values in it. -/
theorem ReplacesWell.field {field : Field} {ms : List (Text × Json)} {σ : Replacement}
    (hms : ∀ m ∈ ms, ReplacesWell lib m.2) (hcheck : field.check (lib.members ms) = .ok ())
    (hfits : (σ.part (.key field.key)).Fits (field.inside (sitesOfMembers ms))) :
    field.check (lib.members (replacedMembers ms σ)) =
      σ.outcome lib (field.sites (sitesOfMembers ms)) := by
  rw [Field.sites, Replacement.outcome_behind]
  simp only [Field.check, member?_members, member?_replacedMembers, Field.inside,
    member?_sitesOfMembers] at hcheck hfits ⊢
  cases hv : member? field.key ms with
  | none =>
    simp only [hv, Option.map_none] at hcheck ⊢
    rw [hcheck]
    cases field.content <;> rfl
  | some v =>
    simp only [hv, Option.map_some] at hcheck hfits ⊢
    cases hcontent : field.content with
    | plain role =>
      simp only [hcontent] at hcheck hfits ⊢
      rw [replaced_of_none v hfits.eq_none, hcheck]
      rfl
    | nodes shape =>
      simp only [hcontent, beneath_eq_ok] at hcheck hfits ⊢
      exact congrArg (beneath (.key field.key)) (hms _ (mem_of_member? hv) shape _ hcheck hfits)

/-- A list is as right as the new values in its items. -/
theorem ReplacesWell.items {family : Family} {σ : Replacement} : ∀ {vs : List Json} {n : Nat},
    (∀ v ∈ vs, ReplacesWell lib v) → family.checkItems n (vs.map lib.roles) = .ok () →
    (∀ m route, n ≤ m → (σ (.index m :: route)).isSome →
      ∃ s ∈ family.sitesOfItems n (sitesOfItems vs), s.route = .index m :: route) →
    σ.Disjoint → family.checkItems n ((replacedItems vs n σ).map lib.roles) =
      σ.outcome lib (family.sitesOfItems n (sitesOfItems vs))
  | [], _, _, _, _, _ => rfl
  | v :: vs, n, hvs, hcheck, hat, hdisjoint => by
    rw [List.map_cons, Family.checkItems, both_eq_ok, beneath_eq_ok] at hcheck
    rw [sitesOfItems, Family.sitesOfItems] at hat
    have hfirst : (σ.part (.index n)).Fits (v.sites (.one family)) := by
      refine ⟨fun route hsome => ?_, hdisjoint.part (.index n)⟩
      obtain ⟨s, hs, hroute⟩ := hat n route le_rfl hsome
      obtain hs | hs := List.mem_append.mp hs
      · obtain ⟨s', hs', rfl⟩ := List.mem_map.mp hs
        exact ⟨s', hs', (List.cons.inj hroute).2⟩
      · obtain ⟨i, w, -, s', -, rfl⟩ := exists_item_of_mem hs
        injection hroute with hstep
        injection hstep with hstep
        omega
    have hrest : ∀ m route, n + 1 ≤ m → (σ (.index m :: route)).isSome →
        ∃ s ∈ family.sitesOfItems (n + 1) (sitesOfItems vs), s.route = .index m :: route := by
      intro m route hm hsome
      obtain ⟨s, hs, hroute⟩ := hat m route (by omega) hsome
      obtain hs | hs := List.mem_append.mp hs
      · obtain ⟨s', -, rfl⟩ := List.mem_map.mp hs
        injection hroute with hstep
        injection hstep with hstep
        omega
      · exact ⟨s, hs, hroute⟩
    rw [replacedItems, List.map_cons, Family.checkItems, sitesOfItems, Family.sitesOfItems,
      Replacement.outcome_append, Replacement.outcome_behind]
    rw [List.forall_mem_cons] at hvs
    exact congrArg₂ both
      (congrArg (beneath (.index n)) (hvs.1 (.one family) _ hcheck.1 hfirst))
      (ReplacesWell.items hvs.2 hcheck.2 hrest hdisjoint)

theorem ReplacesWell.array (hlib : lib.Validates) {vs : List Json}
    (hvs : ∀ v ∈ vs, ReplacesWell lib v) : ReplacesWell lib (array vs) := by
  refine .of_below fun shape σ hcheck hroot hfits => ?_
  rw [replaced, hroot, Option.getD_none]
  obtain ⟨family, rfl, hitems⟩ := exists_items_of_check hlib hcheck
  rw [hlib.roles_array, Family.check_many]
  refine ReplacesWell.items hvs hitems (fun m route _ hsome => ?_) hfits.disjoint
  exact hfits.at_sites _ hsome

theorem ReplacesWell.object (hlib : lib.Validates) {ms : List (Text × Json)}
    (hms : ∀ m ∈ ms, ReplacesWell lib m.2) : ReplacesWell lib (object ms) := by
  refine .of_below fun shape σ hcheck hroot hfits => ?_
  rw [replaced, hroot, Option.getD_none]
  obtain ⟨family, w, t, fields, rfl, hw, ht, hfields, hchecks, hbelow⟩ :=
    exists_fields_of_check hlib hcheck
  have hnodup := List.nodup_cons.mp (Family.nodup_keys hfields)
  rw [hbelow] at hfits ⊢
  -- The tag is no field, so it is as it was.
  have htype : member? "type" (lib.members (replacedMembers ms σ)) = some (lib.roles w) := by
    rw [member?_members, member?_replacedMembers, hw, Option.map_some,
      replaced_of_none w (hfits.beside hnodup.1).eq_none, Option.map_some]
  have hfield : ∀ field ∈ fields, field.check (lib.members (replacedMembers ms σ)) =
      σ.outcome lib (field.sites (sitesOfMembers ms)) :=
    fun field hmem => ReplacesWell.field hms (hchecks field hmem) (hfits.field hnodup.2 hmem)
  calc (Shape.one family).check (lib.roles (.object (replacedMembers ms σ)))
      = (all (fields.map (·.check (lib.members (replacedMembers ms σ))))).beneath (.key t) := by
        rw [hlib.roles_object, Shape.check,
          Family.check_of_tag htype ((tag_roles hlib w).trans ht) hfields]
    _ = (all (fields.map fun field =>
          σ.outcome lib (field.sites (sitesOfMembers ms)))).beneath (.key t) := by
        rw [List.map_congr_left hfield]
    _ = σ.outcome lib ((fields.flatMap (·.sites (sitesOfMembers ms))).map (.tagged t)) := by
        rw [Replacement.outcome_tagged, Replacement.outcome_flatMap]

/-- **The faults of a changed value are those of the new values**, each under
the path to its place. -/
theorem check_replaced (hlib : lib.Validates) (v : Json) : ReplacesWell lib v := by
  induction v using parts_induction with
  | array vs ih => exact .array hlib ih
  | object ms ih => exact .object hlib ih
  | scalar v hv => exact fun shape σ hcheck => absurd hcheck (check_of_isScalar hlib hv shape)

end Json

/-! ### Loading a changed text -/

section
variable {lib : JsonLibrary}

/-- The faults that the new value at a site has on its own, under the path to
the site. -/
def Site.faults (s : Site) (lib : JsonLibrary) (σ : Replacement) : List Issue :=
  match σ s.route with
  | none => []
  | some v => (s.family.check (lib.roles v)).issues.map fun i => ⟨i.kind, s.path ++ i.path⟩

namespace Site

theorem issues_outcome (s : Site) (σ : Replacement) :
    (s.outcome lib σ).issues = s.faults lib σ := by
  rw [outcome, faults]
  cases σ s.route with
  | none => rfl
  | some v => exact issues_under s.path _

theorem outcome_eq_ok {s : Site} {σ : Replacement} : s.outcome lib σ = .ok () ↔
    ∀ v, σ s.route = some v → s.family.check (lib.roles v) = .ok () := by
  rw [outcome]
  cases σ s.route with
  | none => simp
  | some v => simp [under_eq_ok]

end Site

namespace Replacement

theorem outcome_eq_ok {σ : Replacement} {sites : List Site} :
    σ.outcome lib sites = .ok () ↔
      ∀ s ∈ sites, ∀ v, σ s.route = some v → s.family.check (lib.roles v) = .ok () := by
  rw [outcome, all_eq_ok, List.forall_mem_map]
  exact forall₂_congr fun s _ => s.outcome_eq_ok

theorem issues_outcome (σ : Replacement) (sites : List Site) :
    (σ.outcome lib sites).issues = sites.flatMap (·.faults lib σ) := by
  rw [outcome, issues_all, List.flatMap_map]
  exact List.flatMap_congr fun s _ => s.issues_outcome σ

/-- The new values stand where they are put, if they are put at sites. -/
theorem Fits.at?_replaced (hlib : lib.Validates) {v w : Json} {shape : Shape} {σ : Replacement}
    {route : List Place} (hcheck : shape.check (lib.roles v) = .ok ())
    (h : σ.Fits (v.sites shape)) (hroute : σ route = some w) :
    (v.replaced σ).at? route = some w := by
  obtain ⟨s, hs, rfl⟩ := h.at_sites route (by rw [hroute]; rfl)
  obtain ⟨u, hu, -⟩ := Json.exists_at_of_mem_sites hlib hcheck hs
  exact Json.at?_replaced (by rw [hu]; rfl) hroute h.disjoint

end Replacement

end

namespace JsonLibrary

variable {lib : JsonLibrary} {limits : Json.Limits} {t : Text} {v : Json} {σ : Replacement}

theorem load_eq_ok (ht : lib.read t = some v) {c : Command} :
    lib.load t = .ok c ↔ lib.command v = .ok c := by
  rw [load, ht]
  cases hread : lib.command v <;> simp only [hread] <;> simp

/-- A text is loaded as a value should be that has new values at these sites: it
is accepted exactly if each of them is a node of the family of its place, and
otherwise its faults are theirs. -/
def LoadsAt (lib : JsonLibrary) (t : Text) (sites : List Site) (σ : Replacement) : Prop :=
  ((∃ c, lib.load t = .ok c) ↔
    ∀ s ∈ sites, ∀ w, σ s.route = some w → s.family.check (lib.roles w) = .ok ()) ∧
  ∀ fault, lib.load t = .error fault → fault = .issues (sites.flatMap (·.faults lib σ))

/-- What a text is loaded as follows from what its value is as a command. -/
theorem loadsAt_of_check {sites : List Site} (ht : lib.read t = some v)
    (hcheck : (lib.command v).check = σ.outcome lib sites) : lib.LoadsAt t sites σ := by
  refine ⟨?_, fun fault hfault => ?_⟩
  · simp only [load_eq_ok ht]
    rw [← check_eq_ok, hcheck, Replacement.outcome_eq_ok]
  · rw [← Replacement.issues_outcome, ← hcheck, issues_check]
    rw [load, ht] at hfault
    cases hread : lib.command v with
    | ok c =>
      simp only [hread] at hfault
      cases hfault
    | bad issues =>
      simp only [hread, Except.error.injEq] at hfault
      exact hfault.symm

/-- **A changed text is loaded exactly if each new value is a node of the family
of its place**; otherwise its faults are those of the new values. The sites are
the places of the nodes, each once, and the new values stand where they are put.
A text that goes beyond the limits of the reader has this one fault. -/
theorem load_replaced (hlib : lib.Lawful limits) {c : Command} (ht : lib.read t = some v)
    (hload : lib.load t = .ok c) (hfits : σ.Fits (v.sites (.one .command))) :
    (((v.sites (.one .command)).map Site.route).Nodup ∧
      ∀ s ∈ v.sites (.one .command), ∃ w, v.at? s.route = some w ∧
        s.family.check (lib.roles w) = .ok ()) ∧
    (∀ route w, σ route = some w → (v.replaced σ).at? route = some w) ∧
    (∀ t', lib.read t' = some (v.replaced σ) →
      lib.LoadsAt t' (v.sites (.one .command)) σ) ∧
    ∀ indent, if (v.replaced σ).within limits
      then lib.LoadsAt ((v.replaced σ).render indent 0) (v.sites (.one .command)) σ
      else lib.load ((v.replaced σ).render indent 0) = .error .notJson := by
  have hv : (Shape.one .command).check (lib.roles v) = .ok () :=
    check_eq_ok.mpr ⟨c, (load_eq_ok ht).mp hload⟩
  have hcheck : (lib.command (v.replaced σ)).check = σ.outcome lib (v.sites (.one .command)) :=
    Json.check_replaced hlib.toValidates v (.one .command) σ hv hfits
  refine ⟨⟨Json.nodup_routes hlib.toValidates hv,
    fun s hs => Json.exists_at_of_mem_sites hlib.toValidates hv hs⟩,
    fun route w => hfits.at?_replaced hlib.toValidates hv,
    fun t' ht' => loadsAt_of_check ht' hcheck, fun indent => ?_⟩
  have hread := read_render hlib (v.replaced σ) indent
  split
  · rename_i hwithin
    rw [if_pos hwithin] at hread
    exact loadsAt_of_check hread hcheck
  · rename_i hbeyond
    rw [if_neg hbeyond] at hread
    rw [load, hread]

/-- In a conditional, null stands in the place of the condition, a text in that
of the body and a comment without its position in that of the rest. -/
theorem load_replaced_conditional : ∃ (v : Json) (news : List (List Place × Json)),
    standard.Lawful .standard ∧
    standard.load (v.render none 0) = .ok (.ifElse ⟨0, 1, 1⟩ .noop .noop .noop) ∧
    (Replacement.ofList news).Fits (v.sites (.one .command)) ∧
    (v.replaced (.ofList news)).render none 0 = ("\x7b\"type\":\"if\"," ++
      "\"position\":\x7b\"offset\":0,\"line\":1,\"column\":1\x7d," ++
      "\"condition\":null,\"block\":\x7b\"type\":\"data\",\"text\":\"x\"\x7d," ++
      "\"otherwise\":\x7b\"type\":\"comment\"\x7d\x7d" : String).toList ∧
    standard.load ((v.replaced (.ofList news)).render none 0) = .error (.issues
      [⟨.objectExpected, [.key "if", .key "condition"]⟩,
       ⟨.missing, [.key "if", .key "otherwise", .key "comment", .key "position"]⟩]) := by
  let c : Command := .ifElse ⟨0, 1, 1⟩ .noop .noop .noop
  let v : Json := c.toJson
  let news : List (List Place × Json) :=
    [([.key "condition"], .null),
     ([.key "block"], .object [("type", .string "data"), ("text", .string "x")]),
     ([.key "otherwise"], .object [("type", .string "comment")])]
  have hfits : (Replacement.ofList news).Fits (v.sites (.one .command)) :=
    Replacement.fits_ofList (by decide +kernel) (by decide +kernel)
  have hread := read_render lawful_standard v none
  rw [if_pos (by decide +kernel)] at hread
  have hload := load_render_of_variant lawful_standard (.same c.toJson) none
  rw [if_pos (by decide +kernel)] at hload
  have hchanged := (load_replaced lawful_standard hread hload hfits).2.2.2 none
  rw [if_pos (by decide +kernel)] at hchanged
  obtain ⟨haccepted, hfaults⟩ := hchanged
  refine ⟨v, news, lawful_standard, hload, hfits, by decide +kernel, ?_⟩
  cases hresult : standard.load ((v.replaced (.ofList news)).render none 0) with
  | ok c' =>
    have hsite : ⟨[.key "condition"], [.key "if", .key "condition"], .expr⟩ ∈
        v.sites (.one .command) := by decide +kernel
    have hnull : Family.expr.check (standard.roles .null) = .ok () :=
      haccepted.mp ⟨c', hresult⟩ _ hsite .null rfl
    cases hnull
  | error fault =>
    rw [hfaults fault hresult]
    exact congrArg (fun issues => Except.error (LoadFault.issues issues)) (by decide +kernel)

/-- Blocks within the limits stand in the place of the innermost command of
others, and the whole nests too deep to be read. -/
theorem load_replaced_beyond : ∃ (v w : Json) (route : List Place) (s : Site),
    standard.load (v.render none 0) = .ok (.nested 20) ∧
    s ∈ v.sites (.one .command) ∧ s.route = route ∧ s.family = .command ∧
    standard.load (w.render none 0) = .ok (.nested 95) ∧
    standard.load ((v.replaced (.ofList [(route, w)])).render none 0) = .error .notJson := by
  let v : Json := (Command.nested 20).toJson
  let w : Json := (Command.nested 95).toJson
  let route : List Place := (List.replicate 20 [.key "commands", .index 0]).flatten
  let path : List Place := (List.replicate 20 [.key "multiple", .key "commands", .index 0]).flatten
  have hs : (⟨route, path, .command⟩ : Site) ∈ v.sites (.one .command) := by decide +kernel
  have hfits : (Replacement.ofList [(route, w)]).Fits (v.sites (.one .command)) := by
    refine Replacement.fits_ofList (fun r hr => ?_) (fun r hr longer hlonger _ => ?_)
    · obtain rfl := List.mem_singleton.mp hr
      exact ⟨_, hs, rfl⟩
    · rw [List.mem_singleton.mp hr, List.mem_singleton.mp hlonger]
  have hback : ∀ n, (Command.nested n).toJson.within .standard = true →
      standard.load ((Command.nested n).toJson.render none 0) = .ok (.nested n) := by
    intro n hn
    rw [load_render_of_variant lawful_standard (.same _), if_pos hn]
  have hv : standard.load (v.render none 0) = .ok (.nested 20) := hback 20 (by decide +kernel)
  have hread : standard.read (v.render none 0) = some v := by
    rw [read_render lawful_standard, if_pos (by decide +kernel)]
  have hbeyond : (v.replaced (.ofList [(route, w)])).within .standard = false := by
    decide +kernel
  obtain ⟨-, -, -, hchanged⟩ := load_replaced lawful_standard hread hv hfits
  simp only [hbeyond, Bool.false_eq_true, if_false] at hchanged
  exact ⟨v, w, route, _, hv, hs, rfl, rfl, hback 95 (by decide +kernel), hchanged none⟩

end JsonLibrary

end ClearSilver
