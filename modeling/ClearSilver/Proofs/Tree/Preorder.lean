/-
# A walk is the preorder of its tree

`Node.walk` keeps a list of the nodes it still has to see and is given as many
steps as the tree has nodes. That is enough: any greater budget sees the same
nodes (`Node.walkPending_budget`), a list of nodes is walked one after the
other (`Node.walkPending_append`), and so a walk is the node followed by the
walks of its children in order (`Node.walk_eq`). A child has fewer nodes than
its parent, which gives induction from the children to the node
(`Node.induction_children`).

Key theorems: `Node.count_eq`, `Node.induction_children`,
`Node.walkPending_budget`, `Node.walk_eq`.
-/
import ClearSilver.Tree.Walk

namespace ClearSilver

/-- How many nodes some trees have together. -/
def Node.total : List Node → Nat
  | [] => 0
  | x :: xs => x.count + total xs

theorem Expr.countAll_eq (es : List Expr) : Expr.countAll es = Node.total (es.map .expr) := by
  induction es with
  | nil => rfl
  | cons e es ih => rw [Expr.countAll, ih, List.map_cons, Node.total, Node.count]

theorem Variable.countAll_eq (vs : List Variable) :
    Variable.countAll vs = Node.total (vs.map .path) := by
  induction vs with
  | nil => rfl
  | cons v vs ih => rw [Variable.countAll, ih, List.map_cons, Node.total, Node.count]

theorem Command.countAll_eq (cs : List Command) :
    Command.countAll cs = Node.total (cs.map .command) := by
  induction cs with
  | nil => rfl
  | cons c cs ih => rw [Command.countAll, ih, List.map_cons, Node.total, Node.count]

namespace Node

theorem total_cons (x : Node) (xs : List Node) : total (x :: xs) = x.count + total xs := rfl

theorem total_append (xs ys : List Node) : total (xs ++ ys) = total xs + total ys := by
  induction xs with
  | nil => rw [List.nil_append, total, Nat.zero_add]
  | cons x xs ih => rw [List.cons_append, total, total, ih, Nat.add_assoc]

/-- A tree has its root and the nodes below it. -/
theorem count_eq (x : Node) : x.count = total x.children + 1 := by
  cases x with
  | path v =>
    cases v <;> simp [count, Variable.count, total, children, fields, Variable.fields,
      FieldValue.held]
  | expr e =>
    cases e <;> simp [count, Expr.count, total, children, fields, Expr.fields, FieldValue.held,
      Expr.countAll_eq]
  | command c =>
    cases c with
    | loop p v b body =>
      cases b <;> simp [count, Command.count, total, children, fields, Command.fields,
        FieldValue.held, Command.bodyField, Bounds.fields, Bounds.count] <;> omega
    | _ => simp [count, Command.count, total, children, fields, Command.fields, FieldValue.held,
        Command.bodyField, Expr.countAll_eq, Variable.countAll_eq, Command.countAll_eq,
        total_append, Nat.add_assoc]

theorem total_pos_of_ne_nil {xs : List Node} (h : xs ≠ []) : 0 < total xs := by
  cases xs with
  | nil => exact absurd rfl h
  | cons x xs =>
    have := count_eq x
    rw [total_cons]
    omega

theorem count_le_total : ∀ {xs : List Node} {y : Node}, y ∈ xs → y.count ≤ total xs
  | x :: xs, y, h => by
    rw [total_cons]
    obtain rfl | h := List.mem_cons.mp h
    · omega
    · have := count_le_total h
      omega

theorem count_lt_of_mem_children {x y : Node} (h : y ∈ x.children) : y.count < x.count := by
  have hcount := count_eq x
  have hle := count_le_total h
  omega

/-- What holds of a node whenever it holds of its children holds of every tree. -/
theorem induction_children {P : Node → Prop} (h : ∀ x, (∀ y ∈ x.children, P y) → P x)
    (x : Node) : P x := by
  induction hn : x.count using Nat.strongRecOn generalizing x with
  | ind n ih => exact h x fun y hy => ih y.count (hn ▸ count_lt_of_mem_children hy) y rfl

/-- Steps beyond the number of nodes see nothing more. -/
theorem walkPending_budget : ∀ (n m : Nat) (xs : List Node), total xs ≤ n → total xs ≤ m →
    walkPending n xs = walkPending m xs
  | n, m, [], _, _ => by cases n <;> cases m <;> rfl
  | 0, _, x :: xs, h, _ | _, 0, x :: xs, _, h =>
    absurd (total_pos_of_ne_nil (List.cons_ne_nil x xs)) (by omega)
  | n + 1, m + 1, x :: xs, hn, hm => by
    have hx := count_eq x
    rw [total_cons] at hn hm
    have := walkPending_budget n m (x.children ++ xs) (by rw [total_append]; omega)
      (by rw [total_append]; omega)
    simp only [walkPending, this]

/-- Trees are walked one after the other. -/
theorem walkPending_append : ∀ (n : Nat) (xs ys : List Node), total (xs ++ ys) ≤ n →
    walkPending n (xs ++ ys) = walkPending n xs ++ walkPending n ys
  | n, [], ys, _ => by cases n <;> simp [walkPending]
  | 0, x :: xs, ys, h =>
    absurd (total_pos_of_ne_nil (List.cons_ne_nil x (xs ++ ys))) (by simpa using h)
  | n + 1, x :: xs, ys, h => by
    have hx := count_eq x
    rw [total_append, total_cons] at h
    have happ := walkPending_append n (x.children ++ xs) ys
      (by rw [total_append, total_append]; omega)
    have hys := walkPending_budget n (n + 1) ys (by omega) (by omega)
    rw [List.append_assoc] at happ
    simp only [List.cons_append, walkPending, happ, hys]

theorem walkPending_eq : ∀ (n : Nat) (xs : List Node), total xs ≤ n →
    walkPending n xs = xs.flatMap walk
  | n, [], _ => by cases n <;> rfl
  | n, x :: xs, h => by
    have hx : total [x] ≤ n := by rw [total_cons] at h; rw [total, total]; omega
    have hxs : total xs ≤ n := by rw [total_cons] at h; omega
    rw [← List.singleton_append, walkPending_append n [x] xs h, walkPending_eq n xs hxs,
      List.flatMap_append, walkPending_budget n x.count [x] hx (by simp [total])]
    simp [walk]

/-- **A walk is the preorder.** The node comes first, then the walks of its
children in order. -/
theorem walk_eq (x : Node) : x.walk = x :: x.children.flatMap walk := by
  rw [walk, count_eq, walkPending, List.append_nil, walkPending_eq _ _ (Nat.le_refl _)]

end Node
end ClearSilver
