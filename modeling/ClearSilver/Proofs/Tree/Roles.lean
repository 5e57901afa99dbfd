/-
# What is written for a tree is read back

Each value in the JSON of a tree, and each variant of it, is read in its role
as what it was written for (`Json.ReadsAs`): a position as the position, a
variable as the variable, a node by its fields in the kind of its tag. The
library has to validate values by the rules for roles, and nothing else.

Key definitions: `Variable.ReadBack`, `Expr.ReadBack`, `Command.ReadBack`.
Key theorems: `Variable.readBack`, `Expr.readBack`, `Command.readBack`.
-/
import ClearSilver.Proofs.Json.Variants
import ClearSilver.Tree.Json

namespace ClearSilver

open Json

variable {lib : JsonLibrary}

/-- A variable is read as itself from its JSON and the variants of it. -/
abbrev Variable.ReadBack (lib : JsonLibrary) (v : Variable) : Prop :=
  ReadsAs lib (·.path) v.toJson v

/-- An expression is read as itself from its JSON and the variants of it. -/
abbrev Expr.ReadBack (lib : JsonLibrary) (e : Expr) : Prop := ReadsAs lib (·.expr) e.toJson e

/-- A command is read as itself from its JSON and the variants of it. -/
abbrev Command.ReadBack (lib : JsonLibrary) (c : Command) : Prop :=
  ReadsAs lib (·.command) c.toJson c

section
variable (hlib : lib.Validates)
include hlib

/-! ### Fields that are no nodes -/

theorem Position.readsAs (p : Position) : ReadsAs lib (·.position) p.toJson p := by
  refine readsAs_object hlib (by simp) fun ns ⟨hoffset, hline, hcolumn⟩ => ?_
  have hread : ∀ {k n}, Shows ns k (.integer n) → default? k = none →
      (lib.members ns).field k (·.integer) = .ok n :=
    fun h hk => h.required hk (readsAs_integer hlib _)
  show Members.position _ = _
  rw [Members.position, hread hoffset rfl, hread hline rfl, hread hcolumn rfl]
  rfl

theorem MacroName.readsAs (n : MacroName) : ReadsAs lib (·.name) n.toJson n := by
  intro w hw
  obtain ⟨ws, rfl, hws⟩ := hw.exists_items
  have hwords : List.Forall₂ (ReadsAs lib (·.text)) (n.words.map .string) n.words := by
    rw [List.forall₂_map_left_iff, List.forall₂_same]
    exact fun t _ => readsAs_text hlib t
  rw [hlib.roles_array]
  show Roles.nameOfWords _ = _
  rw [each_of_forall₂ hwords hws]
  rfl

theorem readsAs_optionalText (t : Option Text) :
    ReadsAs lib (·.optionalText) (optionalJson t) t := by
  intro w hw
  cases t with
  | none =>
    rw [Variant.null_eq hw]
    exact hlib.optionalText_null
  | some t =>
    rw [Variant.string_eq hw]
    exact hlib.optionalText_string t

/-! ### Nodes by their tags -/

section
variable {fields : List (Text × Json)}

/-- A node with its tag first is read by its fields, in the kind of the tag. -/
theorem readsAs_tagged {α κ : Type} {role : Roles → Reading α} {ofTag? : Text → Option κ}
    {tag : κ → Text} {read : Members → κ → Reading α} {kind : κ} {a : α}
    (hrole : ∀ ms, role (Roles.ofMembers ms) = ms.tagged ofTag? tag (read ms))
    (hkind : ofTag? (tag kind) = some kind)
    (hkeys : ("type".toList :: fields.map Prod.fst).Nodup)
    (hread : ∀ ns, fields.Forall (fun m => Shows ns m.1 m.2) →
      read (lib.members ns) kind = .ok a) :
    ReadsAs lib role (taggedJson (tag kind) fields) a := by
  refine readsAs_object hlib hkeys fun ns hs => ?_
  obtain ⟨htag, hfields⟩ := (List.forall_cons _ _ _).mp hs
  rw [hrole]
  exact htag.tagged hlib hkind (hread ns hfields)

theorem Variable.readsAs_tagged {v : Variable} (kind : Variable.Kind)
    (hkeys : ("type".toList :: fields.map Prod.fst).Nodup)
    (hread : ∀ ns, fields.Forall (fun m => Shows ns m.1 m.2) →
      Members.path (lib.members ns) kind = .ok v) :
    ReadsAs lib (·.path) (taggedJson kind.tag fields) v :=
  ClearSilver.readsAs_tagged hlib (fun _ => rfl) (Kind.ofTag?_tag kind) hkeys hread

theorem Expr.readsAs_tagged {e : Expr} (kind : Expr.Kind)
    (hkeys : ("type".toList :: fields.map Prod.fst).Nodup)
    (hread : ∀ ns, fields.Forall (fun m => Shows ns m.1 m.2) →
      Members.expr (lib.members ns) kind = .ok e) :
    ReadsAs lib (·.expr) (taggedJson kind.tag fields) e :=
  ClearSilver.readsAs_tagged hlib (fun _ => rfl) (Kind.ofTag?_tag kind) hkeys hread

theorem Command.readsAs_tagged {c : Command} (kind : Command.Kind)
    (hkeys : ("type".toList :: fields.map Prod.fst).Nodup)
    (hread : ∀ ns, fields.Forall (fun m => Shows ns m.1 m.2) →
      Members.command (lib.members ns) kind = .ok c) :
    ReadsAs lib (·.command) (taggedJson kind.tag fields) c :=
  ClearSilver.readsAs_tagged hlib (fun _ => rfl) (Kind.ofTag?_tag kind) hkeys hread

end

end

/-! ### Variables and expressions -/

-- Each field is found under its key, whatever the variant, and read as itself
-- by the recursion.
mutual

/-- **A variable is read as itself.** -/
theorem Variable.readBack (hlib : lib.Validates) : ∀ v : Variable, v.ReadBack lib
  | .name word => by
    refine Variable.readsAs_tagged hlib .name (by simp) fun ns hword => ?_
    rw [Members.path, hword.required rfl (readsAs_text hlib word)]
    rfl
  | .decNumber digits => by
    refine Variable.readsAs_tagged hlib .decNumber (by simp) fun ns hvalue => ?_
    rw [Members.path, hvalue.required rfl (readsAs_text hlib digits)]
    rfl
  | .hexNumber digits => by
    refine Variable.readsAs_tagged hlib .hexNumber (by simp) fun ns hvalue => ?_
    rw [Members.path, hvalue.required rfl (readsAs_text hlib digits)]
    rfl
  | .descend parent child => by
    refine Variable.readsAs_tagged hlib .descend (by simp) fun ns ⟨hparent, hchild⟩ => ?_
    rw [Members.path, hparent.required rfl (parent.readBack hlib),
      hchild.required rfl (child.readBack hlib)]
    rfl
  | .expand parent index => by
    refine Variable.readsAs_tagged hlib .expand (by simp) fun ns ⟨hparent, hindex⟩ => ?_
    rw [Members.path, hparent.required rfl (parent.readBack hlib),
      hindex.required rfl (index.readBack hlib)]
    rfl

/-- **An expression is read as itself.** -/
theorem Expr.readBack (hlib : lib.Validates) : ∀ e : Expr, e.ReadBack lib
  | .string value => by
    refine Expr.readsAs_tagged hlib .string (by simp) fun ns hvalue => ?_
    rw [Members.expr, hvalue.required rfl (readsAs_text hlib value)]
    rfl
  | .decimal digits => by
    refine Expr.readsAs_tagged hlib .decimal (by simp) fun ns hvalue => ?_
    rw [Members.expr, hvalue.required rfl (readsAs_text hlib digits)]
    rfl
  | .hex digits => by
    refine Expr.readsAs_tagged hlib .hex (by simp) fun ns hvalue => ?_
    rw [Members.expr, hvalue.required rfl (readsAs_text hlib digits)]
    rfl
  | .lookup path => by
    refine Expr.readsAs_tagged hlib .lookup (by simp) fun ns hpath => ?_
    rw [Members.expr, hpath.required rfl (path.readBack hlib)]
    rfl
  | .apply callee arguments => by
    refine Expr.readsAs_tagged hlib .apply (by simp) fun ns ⟨hcallee, harguments⟩ => ?_
    rw [Members.expr, hcallee.required rfl (callee.readBack hlib),
      harguments.arguments hlib (·.exprs) (fun _ => rfl) (Expr.readsAll hlib arguments)]
    rfl
  | .sequence items => by
    refine Expr.readsAs_tagged hlib .sequence (by simp) fun ns hs => ?_
    have hitems : ReadsAs lib (·.exprs) _ items :=
      readsAs_array hlib (fun _ => rfl) (Expr.readsAll hlib items)
    rw [Members.expr, hs.required rfl hitems]
    rfl
  | .unary op operand => by
    refine Expr.readsAs_tagged hlib (.unary op) (by simp) fun ns hoperand => ?_
    rw [Members.expr, hoperand.required rfl (operand.readBack hlib)]
    rfl
  | .binary op left right => by
    refine readsAs_object hlib (by simp) fun ns ⟨hleft, hright, hlast⟩ => ?_
    have htag : Shows ns "type" (.string (Expr.Kind.tag (.binary op))) := hlast
    refine htag.tagged hlib (Expr.Kind.ofTag?_tag _) ?_
    rw [Members.expr, hleft.required rfl (left.readBack hlib),
      hright.required rfl (right.readBack hlib)]
    rfl
  | .noop => Expr.readsAs_tagged hlib .noop (by simp) fun _ _ => rfl

theorem Expr.readsAll (hlib : lib.Validates) : ∀ es : List Expr,
    List.Forall₂ (ReadsAs lib (·.expr)) (Expr.toJsonAll es) es
  | [] => .nil
  | e :: es => .cons (e.readBack hlib) (Expr.readsAll hlib es)

end

section
variable (hlib : lib.Validates)
include hlib

theorem Variable.readsAll (vs : List Variable) :
    List.Forall₂ (ReadsAs lib (·.path)) (vs.map Variable.toJson) vs := by
  rw [List.forall₂_map_left_iff, List.forall₂_same]
  exact fun v _ => v.readBack hlib

theorem Bounds.reads {ns : List (Text × Json)} (b : Bounds)
    (hs : b.toMembers.Forall fun m => Shows ns m.1 m.2) :
    Members.bounds (lib.members ns) b.kind = .ok b := by
  cases b with
  | upTo stop =>
    have hstop : Shows ns "end" stop.toJson := hs
    rw [Bounds.kind, Members.bounds, hstop.required rfl (stop.readBack hlib)]
    rfl
  | range start stop =>
    obtain ⟨hstart, hstop⟩ := hs
    rw [Bounds.kind, Members.bounds, hstart.required rfl (start.readBack hlib),
      hstop.required rfl (stop.readBack hlib)]
    rfl
  | stepped start stop step =>
    obtain ⟨hstart, hstop, hstep⟩ := hs
    rw [Bounds.kind, Members.bounds, hstart.required rfl (start.readBack hlib),
      hstop.required rfl (stop.readBack hlib), hstep.required rfl (step.readBack hlib)]
    rfl

/-! ### Commands without a body -/

namespace Command

variable (p : Position) (v : Variable) (e : Expr)

theorem readBack_data (t : Text) : (data t).ReadBack lib := by
  refine readsAs_tagged hlib .data (by simp) fun ns htext => ?_
  simp only [Members.command, htext.field (by nofun) (readsAs_text hlib t)]
  rfl

/-- Only a comment without text is written with the default of its text. -/
theorem readBack_comment (t : Option Text) : (comment p t).ReadBack lib := by
  have hdefault : default? "text" = some (optionalJson t) → t = none := by
    intro h
    cases t with
    | none => rfl
    | some t => cases h
  refine readsAs_tagged hlib .comment (by simp) fun ns ⟨hposition, htext⟩ => ?_
  simp only [Members.command, hposition.required rfl (p.readsAs hlib),
    htext.fieldOr hdefault (readsAs_optionalText hlib t)]
  rfl

theorem readBack_output (form : OutputForm) : (output form p e).ReadBack lib := by
  refine readsAs_tagged hlib (.output form) (by simp) fun ns ⟨hposition, hexpression⟩ => ?_
  simp only [Members.command, hposition.required rfl (p.readsAs hlib),
    hexpression.required rfl (e.readBack hlib)]
  rfl

theorem readBack_assign : (assign p v e).ReadBack lib := by
  refine readsAs_tagged hlib .assign (by simp) fun ns ⟨hposition, htarget, hexpression⟩ => ?_
  simp only [Members.command, hposition.required rfl (p.readsAs hlib),
    htarget.required rfl (v.readBack hlib), hexpression.required rfl (e.readBack hlib)]
  rfl

theorem readBack_name : (name p v).ReadBack lib := by
  refine readsAs_tagged hlib .name (by simp) fun ns ⟨hposition, htarget⟩ => ?_
  simp only [Members.command, hposition.required rfl (p.readsAs hlib),
    htarget.required rfl (v.readBack hlib)]
  rfl

theorem readBack_call (n : MacroName) (es : List Expr) : (call p n es).ReadBack lib := by
  refine readsAs_tagged hlib .call (by simp) fun ns ⟨hposition, hname, harguments⟩ => ?_
  simp only [Members.command, hposition.required rfl (p.readsAs hlib),
    hname.required rfl (n.readsAs hlib),
    harguments.arguments hlib (·.exprs) (fun _ => rfl) (Expr.readsAll hlib es)]
  rfl

theorem readBack_inclusion (form : IncludeForm) : (inclusion form p e).ReadBack lib := by
  refine readsAs_tagged hlib (.inclusion form) (by simp) fun ns ⟨hposition, htarget⟩ => ?_
  simp only [Members.command, hposition.required rfl (p.readsAs hlib),
    htarget.required rfl (e.readBack hlib)]
  rfl

theorem readBack_contentType (t : Text) : (contentType p t).ReadBack lib := by
  refine readsAs_tagged hlib .contentType (by simp) fun ns ⟨hposition, hvalue⟩ => ?_
  simp only [Members.command, hposition.required rfl (p.readsAs hlib),
    hvalue.required rfl (readsAs_text hlib t)]
  rfl

theorem readBack_noop : noop.ReadBack lib :=
  readsAs_tagged hlib .noop (by simp) fun _ _ => rfl

/-! ### Commands that hold commands -/

theorem readBack_multiple {cs : List Command}
    (hcs : List.Forall₂ (ReadsAs lib (·.command)) (toJsonAll cs) cs) :
    (multiple cs).ReadBack lib := by
  refine readsAs_tagged hlib .multiple (by simp) fun ns hs => ?_
  have hitems : ReadsAs lib (·.commands) _ cs := readsAs_array hlib (fun _ => rfl) hcs
  simp only [Members.command, hs.required rfl hitems]
  rfl

section
variable {body : Command} (hbody : body.ReadBack lib)
include hbody

theorem readBack_wrap (form : WrapForm) : (wrap form p e body).ReadBack lib := by
  refine readsAs_tagged hlib (.wrap form) (by simp) fun ns ⟨hposition, hexpression, hlast⟩ => ?_
  simp only [Members.command, hposition.required rfl (p.readsAs hlib),
    hexpression.required rfl (e.readBack hlib), hlast.required rfl hbody]
  rfl

theorem readBack_bind (form : BindForm) : (bind form p v e body).ReadBack lib := by
  refine readsAs_tagged hlib (.bind form) (by simp)
    fun ns ⟨hposition, htarget, hexpression, hlast⟩ => ?_
  simp only [Members.command, hposition.required rfl (p.readsAs hlib),
    htarget.required rfl (v.readBack hlib), hexpression.required rfl (e.readBack hlib),
    hlast.required rfl hbody]
  rfl

theorem readBack_loop (b : Bounds) : (loop p v b body).ReadBack lib := by
  refine readsAs_tagged hlib (.loop b.kind) (by cases b <;> simp [Bounds.toMembers])
    fun ns ⟨hposition, hmembers⟩ => ?_
  obtain ⟨htarget, htail⟩ := (List.forall_cons _ _ _).mp hmembers
  obtain ⟨hbounds, hlast⟩ := List.forall_append.mp htail
  have hlast : Shows ns "body" body.toJson := hlast
  simp only [Members.command, hposition.required rfl (p.readsAs hlib),
    htarget.required rfl (v.readBack hlib), b.reads hlib hbounds, hlast.required rfl hbody]
  rfl

theorem readBack_define (n : MacroName) (vs : List Variable) :
    (define p n vs body).ReadBack lib := by
  refine readsAs_tagged hlib .define (by simp)
    fun ns ⟨hposition, hname, hparameters, hlast⟩ => ?_
  simp only [Members.command, hposition.required rfl (p.readsAs hlib),
    hname.required rfl (n.readsAs hlib),
    hparameters.arguments hlib (·.paths) (fun _ => rfl) (Variable.readsAll hlib vs),
    hlast.required rfl hbody]
  rfl

theorem readBack_inline : (inline p body).ReadBack lib := by
  refine readsAs_tagged hlib .inline (by simp) fun ns ⟨hposition, hlast⟩ => ?_
  simp only [Members.command, hposition.required rfl (p.readsAs hlib), hlast.required rfl hbody]
  rfl

end

theorem readBack_ifElse {block otherwise : Command} (hblock : block.ReadBack lib)
    (hotherwise : otherwise.ReadBack lib) : (ifElse p e block otherwise).ReadBack lib := by
  refine readsAs_tagged hlib .ifElse (by simp)
    fun ns ⟨hposition, hcondition, hfirst, hsecond⟩ => ?_
  simp only [Members.command, hposition.required rfl (p.readsAs hlib),
    hcondition.required rfl (e.readBack hlib), hfirst.required rfl hblock,
    hsecond.required rfl hotherwise]
  rfl

end Command

end

mutual

/-- **A command is read as itself**, with all that it encloses. -/
theorem Command.readBack (hlib : lib.Validates) : ∀ c : Command, c.ReadBack lib
  | .multiple cs => readBack_multiple hlib (Command.readsAll hlib cs)
  | .data t => readBack_data hlib t
  | .comment p t => readBack_comment hlib p t
  | .output form p e => readBack_output hlib p e form
  | .assign p v e => readBack_assign hlib p v e
  | .name p v => readBack_name hlib p v
  | .wrap form p e body => readBack_wrap hlib p e (body.readBack hlib) form
  | .bind form p v e body => readBack_bind hlib p v e (body.readBack hlib) form
  | .loop p v b body => readBack_loop hlib p v (body.readBack hlib) b
  | .define p n vs body => readBack_define hlib p (body.readBack hlib) n vs
  | .call p n es => readBack_call hlib p n es
  | .ifElse p e block otherwise =>
    readBack_ifElse hlib p e (block.readBack hlib) (otherwise.readBack hlib)
  | .inclusion form p e => readBack_inclusion hlib p e form
  | .contentType p t => readBack_contentType hlib p t
  | .inline p body => readBack_inline hlib p (body.readBack hlib)
  | .noop => readBack_noop hlib

theorem Command.readsAll (hlib : lib.Validates) : ∀ cs : List Command,
    List.Forall₂ (ReadsAs lib (·.command)) (Command.toJsonAll cs) cs
  | [] => .nil
  | c :: cs => .cons (c.readBack hlib) (Command.readsAll hlib cs)

end

end ClearSilver
