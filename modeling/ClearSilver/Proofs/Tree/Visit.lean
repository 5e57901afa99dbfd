/-
# What a visit records

Equal trees may stand at several places of one tree, so walks and visits are
compared place by place. A place is a path of child indices from the root
(`Node.at?`), and a tree has its root's place and, below each child, the places
of the child (`Node.places`). These come in lexicographic order, each place once
and no other path (`Node.pairwise_places`, `Node.mem_places`).

A visit by a table stops below a node whose kind the table maps to false. So it
records a place when the table mentions the kind of the node there and maps the
kind of no node above it to false (`Node.recordsAt`), and what it records are the
nodes at those places in order (`Node.map_visits`). A table that maps every kind
to true records the whole walk (`Node.visits_eq_walk`).

Key definitions: `Node.at?`, `Node.places`, `Node.recordsAt`.
Key theorems: `Node.mem_places`, `Node.pairwise_places`, `Node.visits_eq`,
`Node.map_visits`, `Node.traversals_agree`.
-/
import Mathlib.Data.List.FinRange
import ClearSilver.Proofs.Tree.Preorder

namespace ClearSilver
namespace Node

variable {handle : Kind → Option Bool}

/-! ### Places -/

/-- The node at the end of a path of child indices. -/
def at? (x : Node) (p : List Nat) : Option Node := p.foldlM (fun y i => y.children[i]?) x

/-- The paths to the nodes of a tree, in the order of the walk. -/
def places (x : Node) : List (List Nat) :=
  [] :: (List.finRange x.children.length).flatMap fun i =>
    (places x.children[i.val]).map (i.val :: ·)
termination_by x.count
decreasing_by exact count_lt_of_mem_children (List.getElem_mem _)

theorem at?_nil (x : Node) : x.at? [] = some x := rfl

theorem at?_cons (x : Node) (i : Nat) (p : List Nat) :
    x.at? (i :: p) = x.children[i]?.bind (·.at? p) := List.foldlM_cons

theorem at?_getElem (x : Node) (i : Fin x.children.length) (p : List Nat) :
    x.at? (i.val :: p) = x.children[i.val].at? p := by
  rw [at?_cons, List.getElem?_eq_getElem i.isLt, Option.bind_some]

/-- What is made of the children is made of their indices. -/
theorem flatMap_children {β : Type} (x : Node) (f : Node → List β) :
    x.children.flatMap f =
      (List.finRange x.children.length).flatMap fun i => f x.children[i.val] := by
  have hchildren : (List.finRange x.children.length).map (fun i => x.children[i.val]) =
      x.children := by
    rw [← List.ofFn_eq_map, List.ofFn_getElem]
  conv_lhs => rw [← hchildren, List.flatMap_map]

/-- The places of a tree are the paths that lead to a node. -/
theorem mem_places {x : Node} {p : List Nat} : p ∈ x.places ↔ (x.at? p).isSome := by
  induction p generalizing x with
  | nil => rw [places, at?_nil]; exact iff_of_true List.mem_cons_self rfl
  | cons i p ih =>
    rw [places, List.mem_cons, List.mem_flatMap]
    constructor
    · rintro (h | ⟨k, -, hk⟩)
      · exact absurd h (List.cons_ne_nil i p)
      · obtain ⟨q, hq, h⟩ := List.mem_map.mp hk
        obtain ⟨rfl, rfl⟩ := List.cons.inj h
        rw [at?_getElem]
        exact ih.mp hq
    · intro h
      obtain ⟨y, hy⟩ := Option.isSome_iff_exists.mp h
      rw [at?_cons] at hy
      obtain ⟨c, hc, -⟩ := Option.bind_eq_some_iff.mp hy
      obtain ⟨hi, -⟩ := List.getElem?_eq_some_iff.mp hc
      rw [at?_getElem x ⟨i, hi⟩] at h
      exact .inr ⟨⟨i, hi⟩, List.mem_finRange _, List.mem_map.mpr ⟨p, ih.mpr h, rfl⟩⟩

/-- The places come in lexicographic order, so each comes once. -/
theorem pairwise_places (x : Node) : x.places.Pairwise (· < ·) := by
  induction x using induction_children with
  | h x ih =>
    rw [places, List.pairwise_cons, List.pairwise_flatMap]
    refine ⟨fun p hp => ?_, fun i _ => ?_, ?_⟩
    · obtain ⟨i, -, hi⟩ := List.mem_flatMap.mp hp
      obtain ⟨q, -, rfl⟩ := List.mem_map.mp hi
      exact List.nil_lt_cons _ q
    · refine List.pairwise_map.mpr ((ih _ (List.getElem_mem i.isLt)).imp fun hlt => ?_)
      exact List.cons_lt_cons_iff.mpr (.inr ⟨rfl, hlt⟩)
    · refine (List.pairwise_lt_finRange _).imp fun hlt p hp q hq => ?_
      obtain ⟨p', -, rfl⟩ := List.mem_map.mp hp
      obtain ⟨q', -, rfl⟩ := List.mem_map.mp hq
      exact List.cons_lt_cons_iff.mpr (.inl hlt)

/-! ### Visits -/

/-- Levels beyond the number of nodes record nothing more. -/
theorem visitsWithin_budget {n m : Nat} {x : Node} (hn : x.count ≤ n) (hm : x.count ≤ m) :
    visitsWithin handle n x = visitsWithin handle m x := by
  induction x using induction_children generalizing n m with
  | h x ih =>
    have hcount := count_eq x
    obtain ⟨n, rfl⟩ := Nat.exists_eq_add_of_le' (show 1 ≤ n by omega)
    obtain ⟨m, rfl⟩ := Nat.exists_eq_add_of_le' (show 1 ≤ m by omega)
    have hbelow : x.children.flatMap (visitsWithin handle n) =
        x.children.flatMap (visitsWithin handle m) := by
      refine List.flatMap_congr fun y hy => ih y hy ?_ ?_ <;>
      · have hlt := count_lt_of_mem_children hy
        omega
    simp only [visitsWithin, hbelow]

/-- **A visit is one of the root and of its children.** -/
theorem visits_eq (x : Node) : x.visits handle =
    match handle x.kind with
    | none => x.children.flatMap (visits handle)
    | some true => x :: x.children.flatMap (visits handle)
    | some false => [x] := by
  have hbelow : x.children.flatMap (visitsWithin handle (total x.children)) =
      x.children.flatMap (visits handle) :=
    List.flatMap_congr fun y hy => visitsWithin_budget (count_le_total hy) (Nat.le_refl _)
  have hvisits : x.visits handle = visitsWithin handle (total x.children + 1) x := by
    rw [visits, count_eq]
  rw [hvisits, ← hbelow]
  rfl

/-- A table that maps every kind to true records the whole walk. -/
theorem visits_eq_walk (hall : ∀ k, handle k = some true) (x : Node) : x.visits handle = x.walk := by
  induction x using induction_children with
  | h x ih =>
    rw [visits_eq, walk_eq, hall]
    exact congrArg (x :: ·) (List.flatMap_congr ih)

/-! ### The places that are recorded -/

/-- Whether a visit by a table records the node at a path: the table mentions
its kind and maps the kind of no node above it to false. -/
def recordsAt (handle : Kind → Option Bool) (x : Node) (p : List Nat) : Bool :=
  (x.at? p).any (fun y => (handle y.kind).isSome) &&
    (List.range p.length).all fun n => (x.at? (p.take n)).all fun y => handle y.kind ≠ some false

theorem recordsAt_nil (x : Node) : x.recordsAt handle [] = (handle x.kind).isSome := by
  simp [recordsAt, at?_nil]

/-- Below the root, what the table says of the root comes first. -/
theorem recordsAt_getElem (x : Node) (i : Fin x.children.length) (p : List Nat) :
    x.recordsAt handle (i.val :: p) =
      (decide (handle x.kind ≠ some false) && x.children[i.val].recordsAt handle p) := by
  have habove : ((List.range (i.val :: p).length).all fun n =>
      (x.at? ((i.val :: p).take n)).all fun y => handle y.kind ≠ some false) =
      (decide (handle x.kind ≠ some false) && (List.range p.length).all fun n =>
        (x.children[i.val].at? (p.take n)).all fun y => handle y.kind ≠ some false) := by
    simp only [List.length_cons, List.range_succ_eq_map, List.all_cons, List.all_map,
      Function.comp_def, List.take_zero, List.take_succ_cons, at?_nil, at?_getElem, Option.all_some]
  rw [recordsAt, recordsAt, habove, at?_getElem, Bool.and_left_comm]

/-- The recorded places below the root are those below each child, unless the
table stops at the root. -/
theorem filter_recordsAt_getElem (x : Node) (i : Fin x.children.length) :
    ((x.children[i.val].places.map (i.val :: ·)).filter (x.recordsAt handle)).map x.at? =
      if handle x.kind = some false then []
      else (x.children[i.val].places.filter (x.children[i.val].recordsAt handle)).map
        x.children[i.val].at? := by
  rw [List.filter_map, List.map_map]
  split
  next h => simp [Function.comp_def, recordsAt_getElem, h]
  next h => simp [Function.comp_def, recordsAt_getElem, at?_getElem, h]

/-- **A visit records the recorded places in order.** -/
theorem map_visits (handle : Kind → Option Bool) (x : Node) :
    (x.visits handle).map some = (x.places.filter (x.recordsAt handle)).map x.at? := by
  induction x using induction_children with
  | h x ih =>
    have hbelow : (((List.finRange x.children.length).flatMap fun i =>
        x.children[i.val].places.map (i.val :: ·)).filter (x.recordsAt handle)).map x.at? =
        if handle x.kind = some false then []
        else (x.children.flatMap (visits handle)).map some := by
      rw [List.filter_flatMap, List.map_flatMap, flatMap_children, List.map_flatMap]
      simp only [filter_recordsAt_getElem]
      split
      next => simp
      next => exact List.flatMap_congr fun i _ => (ih _ (List.getElem_mem i.isLt)).symm
    rw [visits_eq, places, List.filter_cons, recordsAt_nil]
    cases hx : handle x.kind with
    | none => simp [hbelow, hx]
    | some goOn => cases goOn <;> simp [hbelow, hx, at?_nil]

/-- A walk goes through the places in order. -/
theorem map_walk (x : Node) : x.walk.map some = x.places.map x.at? := by
  have hall : x.places.filter (x.recordsAt fun _ => some true) = x.places := by
    refine List.filter_eq_self.mpr fun p hp => ?_
    obtain ⟨y, hy⟩ := Option.isSome_iff_exists.mp (mem_places.mp hp)
    simp [recordsAt, hy]
  rw [← visits_eq_walk (fun _ => rfl) x, map_visits, hall]

/-- **Traversals agree.** A walk is the root followed by the walks of the
children and goes once through every place of the tree, in order; a visit by a
table goes through those of the places that are recorded, which are all of them
when the table maps every kind to true. -/
theorem traversals_agree (x : Node) :
    x.walk = x :: x.children.flatMap walk ∧
    x.places.Pairwise (· < ·) ∧ (∀ p, p ∈ x.places ↔ (x.at? p).isSome) ∧
    x.walk.map some = x.places.map x.at? ∧
    (∀ handle, (x.visits handle).map some =
      (x.places.filter (x.recordsAt handle)).map x.at?) ∧
    ∀ handle, (∀ k, handle k = some true) → x.visits handle = x.walk :=
  ⟨walk_eq x, pairwise_places x, fun _ => mem_places, map_walk x,
    fun handle => map_visits handle x, fun _ hall => visits_eq_walk hall x⟩

end Node
end ClearSilver
