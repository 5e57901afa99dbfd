/-
# Canonical trees by their parts

A tree is canonical if its root is regular and the trees below it are
canonical (`Node.isCanonical_eq`). So it is said of each family by recursion on
its trees: what the root asks for and what its parts do.

Key definitions: `Variable.Canonical`, `Expr.Canonical`, `Bounds.Canonical`,
`Command.Canonical`, `Command.Tidy`.
Key theorems: `Node.isCanonical_eq`, `Expr.isCanonical_iff`,
`Command.isCanonical_iff`, `Command.canonical_ofList`.
-/
import ClearSilver.Proofs.Tree.Preorder
import ClearSilver.Tree.Build
import ClearSilver.Tree.Canonical

namespace ClearSilver

/-- A tree is canonical if its root is regular and those below it are canonical. -/
theorem Node.isCanonical_eq (x : Node) :
    x.isCanonical = (x.isRegular && x.children.all isCanonical) := by
  rw [isCanonical, walk_eq, List.all_cons, List.all_flatMap]
  rfl

/-! ### Variables and expressions -/

mutual

/-- Could a template hold this variable? -/
def Variable.Canonical : Variable → Prop
  | .name word => isPlainWord word = true
  | .decNumber digits => isDecimalWord digits = true
  | .hexNumber digits => isHexWord digits = true
  | .descend parent child => parent.Canonical ∧ child.isStep = true ∧ child.Canonical
  | .expand parent index => parent.Canonical ∧ index.Canonical

/-- Could a template hold this expression? -/
def Expr.Canonical : Expr → Prop
  | .string value => isQuotable value = true
  | .decimal digits => isDecimalWord digits = true
  | .hex digits => isHexWord digits = true
  | .lookup path => path.Canonical
  | .apply callee arguments => callee.Canonical ∧ Expr.CanonicalAll arguments
  | .sequence items => 2 ≤ items.length ∧ Expr.CanonicalAll items
  | .unary op operand => (op = .negative → operand.isNumber = true) ∧ operand.Canonical
  | .binary op left right => op.symbol?.isSome = true ∧ left.Canonical ∧ right.Canonical
  | .noop => False

def Expr.CanonicalAll : List Expr → Prop
  | [] => True
  | e :: es => e.Canonical ∧ Expr.CanonicalAll es

end

/-- Are all bounds of a loop canonical? -/
def Bounds.Canonical : Bounds → Prop
  | .upTo stop => stop.Canonical
  | .range start stop => start.Canonical ∧ stop.Canonical
  | .stepped start stop step => start.Canonical ∧ stop.Canonical ∧ step.Canonical

mutual

theorem Variable.isCanonical_iff : ∀ v : Variable,
    (Node.path v).isCanonical = true ↔ v.Canonical
  | .name _ | .decNumber _ | .hexNumber _ => by
    simp [Node.isCanonical_eq, Node.isRegular, Variable.isRegular, Variable.Canonical,
      Node.children, Node.fields, Variable.fields, FieldValue.held]
  | .descend parent child => by
    rw [Node.isCanonical_eq]
    simp [Node.isRegular, Variable.isRegular, Variable.Canonical, Node.children, Node.fields,
      Variable.fields, FieldValue.held, Variable.isCanonical_iff parent,
      Variable.isCanonical_iff child, and_left_comm]
  | .expand parent index => by
    rw [Node.isCanonical_eq]
    simp [Node.isRegular, Variable.isRegular, Variable.Canonical, Node.children, Node.fields,
      Variable.fields, FieldValue.held, Variable.isCanonical_iff parent,
      Expr.isCanonical_iff index]

theorem Expr.isCanonical_iff : ∀ e : Expr, (Node.expr e).isCanonical = true ↔ e.Canonical
  | .string _ | .decimal _ | .hex _ | .noop => by
    simp [Node.isCanonical_eq, Node.isRegular, Expr.isRegular, Expr.Canonical, Node.children,
      Node.fields, Expr.fields, FieldValue.held]
  | .lookup path => by
    rw [Node.isCanonical_eq]
    simp [Node.isRegular, Expr.isRegular, Expr.Canonical, Node.children, Node.fields, Expr.fields,
      FieldValue.held, Variable.isCanonical_iff path]
  | .apply callee arguments => by
    rw [Node.isCanonical_eq]
    simp [Node.isRegular, Expr.isRegular, Expr.Canonical, Node.children, Node.fields, Expr.fields,
      FieldValue.held, Variable.isCanonical_iff callee, ← Expr.isCanonicalAll_iff arguments]
  | .sequence items => by
    rw [Node.isCanonical_eq]
    simp [Node.isRegular, Expr.isRegular, Expr.Canonical, Node.children, Node.fields, Expr.fields,
      FieldValue.held, ← Expr.isCanonicalAll_iff items]
  | .unary op operand => by
    rw [Node.isCanonical_eq]
    simp [Node.isRegular, Expr.isRegular, Expr.Canonical, Node.children, Node.fields, Expr.fields,
      FieldValue.held, Expr.isCanonical_iff operand, Decidable.imp_iff_not_or]
  | .binary op left right => by
    rw [Node.isCanonical_eq]
    simp [Node.isRegular, Expr.isRegular, Expr.Canonical, Node.children, Node.fields, Expr.fields,
      FieldValue.held, Expr.isCanonical_iff left, Expr.isCanonical_iff right]

theorem Expr.isCanonicalAll_iff : ∀ es : List Expr,
    (∀ e ∈ es, (Node.expr e).isCanonical = true) ↔ Expr.CanonicalAll es
  | [] => by simp [Expr.CanonicalAll]
  | e :: es => by
    rw [List.forall_mem_cons, Expr.isCanonical_iff e, Expr.isCanonicalAll_iff es, Expr.CanonicalAll]

end

theorem Expr.canonicalAll_iff : ∀ {es : List Expr}, Expr.CanonicalAll es ↔ ∀ e ∈ es, e.Canonical
  | [] => by simp [Expr.CanonicalAll]
  | e :: es => by rw [List.forall_mem_cons, Expr.CanonicalAll, canonicalAll_iff]

theorem Bounds.isCanonical_iff (b : Bounds) :
    (b.fields.flatMap (·.2.held)).all Node.isCanonical = true ↔ b.Canonical := by
  cases b <;> simp [Bounds.fields, FieldValue.held, Bounds.Canonical, Expr.isCanonical_iff]

/-! ### Commands -/

mutual

/-- Could a template hold this command? -/
def Command.Canonical : Command → Prop
  | .multiple commands => 2 ≤ commands.length ∧ commands.all isSibling = true ∧
      hasAdjacentData commands = false ∧ Command.CanonicalAll commands
  | .data text => text ≠ [] ∧ text.occurs opensTag = false
  | .comment _ text => ∀ t ∈ text, t ≠ [] ∧ t.occurs closesTag = false
  | .output _ _ expression => expression.Canonical
  | .assign _ target expression => target.Canonical ∧ expression.Canonical
  | .name _ target => target.Canonical
  | .wrap _ _ expression body => expression.Canonical ∧ body.Canonical
  | .bind _ _ target expression body => target.Canonical ∧ expression.Canonical ∧ body.Canonical
  | .loop _ target bounds body => target.Canonical ∧ bounds.Canonical ∧ body.Canonical
  | .define _ called parameters body => called.words.all isPlainWord = true ∧
      (∀ v ∈ parameters, v.Canonical) ∧ body.Canonical
  | .call _ called arguments => called.words.all isPlainWord = true ∧ Expr.CanonicalAll arguments
  | .ifElse _ condition block otherwise =>
    condition.Canonical ∧ block.Canonical ∧ otherwise.Canonical
  | .inclusion _ _ target => target.Canonical
  | .contentType _ value => isQuotable value = true
  | .inline _ body => body.Canonical
  | .noop => True

def Command.CanonicalAll : List Command → Prop
  | [] => True
  | c :: cs => c.Canonical ∧ Command.CanonicalAll cs

end

mutual

theorem Command.isCanonical_iff : ∀ c : Command, (Node.command c).isCanonical = true ↔ c.Canonical
  | .multiple commands => by
    rw [Node.isCanonical_eq]
    simp [Node.isRegular, Command.isRegular, Command.Canonical, Node.children, Node.fields,
      Command.fields, FieldValue.held, ← Command.isCanonicalAll_iff commands, and_assoc]
  | .data _ | .contentType _ _ | .noop => by
    simp [Node.isCanonical_eq, Node.isRegular, Command.isRegular, Command.Canonical, Node.children,
      Node.fields, Command.fields, FieldValue.held]
  | .comment _ text => by
    cases text <;> simp [Node.isCanonical_eq, Node.isRegular, Command.isRegular, Command.Canonical,
      Node.children, Node.fields, Command.fields, FieldValue.held]
  | .output _ _ _ | .assign _ _ _ | .name _ _ | .inclusion _ _ _ => by
    rw [Node.isCanonical_eq]
    simp [Node.isRegular, Command.isRegular, Command.Canonical, Node.children, Node.fields,
      Command.fields, FieldValue.held, Variable.isCanonical_iff, Expr.isCanonical_iff]
  | .wrap _ _ _ body | .bind _ _ _ _ body | .inline _ body => by
    rw [Node.isCanonical_eq]
    simp [Node.isRegular, Command.isRegular, Command.Canonical, Node.children, Node.fields,
      Command.fields, Command.bodyField, FieldValue.held, Variable.isCanonical_iff,
      Expr.isCanonical_iff, Command.isCanonical_iff body]
  | .loop _ target bounds body => by
    have hb := Bounds.isCanonical_iff bounds
    rw [Node.isCanonical_eq, Command.Canonical, ← hb]
    simp [Node.isRegular, Command.isRegular, Node.children, Node.fields, Command.fields,
      Command.bodyField, FieldValue.held, Variable.isCanonical_iff, Command.isCanonical_iff body]
  | .define _ _ parameters body => by
    rw [Node.isCanonical_eq]
    simp [Node.isRegular, Command.isRegular, Command.Canonical, Node.children, Node.fields,
      Command.fields, Command.bodyField, FieldValue.held, Variable.isCanonical_iff,
      Command.isCanonical_iff body]
  | .call _ _ arguments => by
    rw [Node.isCanonical_eq]
    simp [Node.isRegular, Command.isRegular, Command.Canonical, Node.children, Node.fields,
      Command.fields, FieldValue.held, ← Expr.isCanonicalAll_iff arguments]
  | .ifElse _ _ block otherwise => by
    rw [Node.isCanonical_eq]
    simp [Node.isRegular, Command.isRegular, Command.Canonical, Node.children, Node.fields,
      Command.fields, FieldValue.held, Expr.isCanonical_iff, Command.isCanonical_iff block,
      Command.isCanonical_iff otherwise]

theorem Command.isCanonicalAll_iff : ∀ cs : List Command,
    (∀ c ∈ cs, (Node.command c).isCanonical = true) ↔ Command.CanonicalAll cs
  | [] => by simp [Command.CanonicalAll]
  | c :: cs => by
    rw [List.forall_mem_cons, Command.isCanonical_iff c, Command.isCanonicalAll_iff cs,
      Command.CanonicalAll]

end

/-! ### Siblings -/

namespace Command

/-- Could a template hold these commands beside each other? -/
structure Tidy (cs : List Command) : Prop where
  siblings : cs.all isSibling = true
  apart : hasAdjacentData cs = false
  canonical : CanonicalAll cs

theorem Tidy.nil : Tidy [] := ⟨rfl, rfl, trivial⟩

/-- A command comes before tidy ones, not literal text before literal text. -/
theorem Tidy.cons {c : Command} {cs : List Command} (hs : c.isSibling = true) (hc : c.Canonical)
    (hcs : Tidy cs) (hd : c.isData = true → ∀ d ∈ cs.head?, d.isData = false) : Tidy (c :: cs) where
  siblings := by rw [List.all_cons, hs, hcs.siblings]; rfl
  apart := by
    cases cs with
    | nil => rfl
    | cons d cs =>
      rw [hasAdjacentData, hcs.apart, Bool.or_false, Bool.and_eq_false_imp]
      exact fun h => hd h d rfl
  canonical := ⟨hc, hcs.canonical⟩

theorem Tidy.tail {c : Command} {cs : List Command} (h : Tidy (c :: cs)) : Tidy cs where
  siblings := by
    have hs := h.siblings
    rw [List.all_cons, Bool.and_eq_true] at hs
    exact hs.2
  apart := by
    cases cs with
    | nil => rfl
    | cons d cs => exact (Bool.or_eq_false_iff.mp h.apart).2
  canonical := h.canonical.2

/-- No literal text follows literal text. -/
theorem Tidy.isData_eq_false {c d : Command} {cs : List Command} (h : Tidy (c :: d :: cs))
    (hc : c.isData = true) : d.isData = false := by
  have ha := (Bool.or_eq_false_iff.mp h.apart).1
  rw [hc] at ha
  exact ha

/-- A canonical body is made of tidy commands. -/
theorem canonical_ofList {cs : List Command} (h : Tidy cs) : (ofList cs).Canonical := by
  match cs, h with
  | [], _ => trivial
  | [c], h => exact h.canonical.1
  | c :: d :: cs, h =>
    exact ⟨by simp, h.siblings, h.apart, h.canonical⟩

end Command

end ClearSilver
