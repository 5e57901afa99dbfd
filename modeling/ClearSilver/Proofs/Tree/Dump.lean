/-
# A compact rendering stands for one tree

The compact rendering of a canonical tree is the text of an outline whose words
are legible: tags, words, numbers and dotted names. The outline is known from
its text, the kind of each node from its tag and its place, and the node from
its fields. So canonical trees with one rendering are the same but for their
positions, which a rendering leaves out (`Command.dump_eq_iff`).

Key definitions: `Variable.outline`, `Expr.outline`, `Command.outline`,
`Command.Known`.
Key theorems: `Command.dump_eq_text`, `Command.legible_outline`,
`Command.known`, `Command.dump_eq_iff`.
-/
import ClearSilver.Proofs.Tree.Canonical
import ClearSilver.Proofs.Tree.Outline
import ClearSilver.Tree.Relocate

namespace ClearSilver

/-! ### The outline of a tree -/

/-- A bare word without fields. -/
abbrev Outline.word (t : Text) : Outline := .node t []

mutual

def Variable.outline : Variable → Outline
  | .name word => .node "name" [.word word]
  | .decNumber digits => .node "dec_number" [.word digits]
  | .hexNumber digits => .node "hex_number" [.word digits]
  | .descend parent child => .node "descend" [parent.outline, child.outline]
  | .expand parent index => .node "expand" [parent.outline, index.outline]

def Expr.outline : Expr → Outline
  | .string value => .node "string" [.quoted value]
  | .decimal digits => .node "decimal" [.word digits]
  | .hex digits => .node "hex" [.word digits]
  | .lookup path => .node "variable" [path.outline]
  | .apply callee arguments => .node "function" [callee.outline, .list (Expr.outlineAll arguments)]
  | .sequence items => .node "sequence" (Expr.outlineAll items)
  | .unary op operand => .node op.tag [operand.outline]
  | .binary op left right => .node op.tag [left.outline, right.outline]
  | .noop => .word "noop"

def Expr.outlineAll : List Expr → List Outline
  | [] => []
  | e :: es => e.outline :: Expr.outlineAll es

end

def Variable.outlineAll : List Variable → List Outline
  | [] => []
  | v :: vs => v.outline :: outlineAll vs

def Bounds.outlineAll : Bounds → List Outline
  | .upTo stop => [stop.outline]
  | .range start stop => [start.outline, stop.outline]
  | .stepped start stop step => [start.outline, stop.outline, step.outline]

mutual

def Command.outline : Command → Outline
  | .multiple commands => .node "multiple" (Command.outlineAll commands)
  | .data text => .node "data" [.quoted text]
  | .comment _ text => .node "comment" (text.toList.map .quoted)
  | .output form _ expression => .node form.tag [expression.outline]
  | .assign _ target expression => .node "set" [target.outline, expression.outline]
  | .name _ target => .node "name" [target.outline]
  | .wrap form _ expression body => .node form.tag [expression.outline, body.outline]
  | .bind form _ target expression body =>
    .node form.tag [target.outline, expression.outline, body.outline]
  | .loop _ target bounds body =>
    .node bounds.kind.tag (target.outline :: bounds.outlineAll ++ [body.outline])
  | .define _ called parameters body =>
    .node "def" [.word called.dump, .list (Variable.outlineAll parameters), body.outline]
  | .call _ called arguments => .node "call" [.word called.dump, .list (Expr.outlineAll arguments)]
  | .ifElse _ condition block otherwise =>
    .node "if" [condition.outline, block.outline, otherwise.outline]
  | .inclusion form _ target => .node form.tag [target.outline]
  | .contentType _ value => .node "content_type" [.quoted value]
  | .inline _ body => .node "inline" [body.outline]
  | .noop => .word "noop"

def Command.outlineAll : List Command → List Outline
  | [] => []
  | c :: cs => c.outline :: Command.outlineAll cs

end

/-! ### A rendering is the text of the outline -/

theorem dumpedItems_eq {tag : Text} {items : List Text} (h : items ≠ []) :
    dumpedItems tag items = dumped tag items := by
  rw [dumped, if_neg (by simpa using h)]
  rfl

mutual

theorem Variable.dump_eq_text : ∀ {v : Variable}, v.Canonical → v.dump = v.outline.text
  | .name _, _ | .decNumber _, _ | .hexNumber _, _ => rfl
  | .descend _ _, h => by
    rw [Variable.dump, Variable.dump_eq_text h.1, Variable.dump_eq_text h.2.2]
    rfl
  | .expand _ _, h => by
    rw [Variable.dump, Variable.dump_eq_text h.1, Expr.dump_eq_text h.2]
    rfl

theorem Expr.dump_eq_text : ∀ {e : Expr}, e.Canonical → e.dump = e.outline.text
  | .string _, _ | .decimal _, _ | .hex _, _ => rfl
  | .lookup _, h => by
    rw [Expr.dump, Variable.dump_eq_text h]
    rfl
  | .apply _ _, h => by
    rw [Expr.dump, Variable.dump_eq_text h.1, Expr.dumpAll_eq_text h.2]
    rfl
  | .sequence items, h => by
    have hne : Outline.textAll (Expr.outlineAll items) ≠ [] := by
      rintro hnil
      cases items with
      | nil => exact absurd h.1 (by decide)
      | cons e es => cases hnil
    rw [Expr.dump, Expr.dumpAll_eq_text h.2, dumpedItems_eq hne]
    rfl
  | .unary _ _, h => by
    rw [Expr.dump, Expr.dump_eq_text h.2]
    rfl
  | .binary _ _ _, h => by
    rw [Expr.dump, Expr.dump_eq_text h.2.1, Expr.dump_eq_text h.2.2]
    rfl

theorem Expr.dumpAll_eq_text : ∀ {es : List Expr}, Expr.CanonicalAll es →
    Expr.dumpAll es = Outline.textAll (Expr.outlineAll es)
  | [], _ => rfl
  | _ :: _, h => by
    rw [Expr.dumpAll, Expr.dump_eq_text h.1, Expr.dumpAll_eq_text h.2]
    rfl

end

theorem Variable.dumpAll_eq_text : ∀ {vs : List Variable}, (∀ v ∈ vs, v.Canonical) →
    vs.map Variable.dump = Outline.textAll (Variable.outlineAll vs)
  | [], _ => rfl
  | v :: vs, h => by
    obtain ⟨hv, hvs⟩ := List.forall_mem_cons.mp h
    rw [List.map_cons, Variable.dump_eq_text hv, dumpAll_eq_text hvs]
    rfl

theorem Bounds.dumpAll_eq_text : ∀ {b : Bounds}, b.Canonical →
    b.dumpAll = Outline.textAll b.outlineAll
  | .upTo _, h => by
    rw [Bounds.dumpAll, Expr.dump_eq_text h]
    rfl
  | .range _ _, h => by
    rw [Bounds.dumpAll, Expr.dump_eq_text h.1, Expr.dump_eq_text h.2]
    rfl
  | .stepped _ _ _, h => by
    rw [Bounds.dumpAll, Expr.dump_eq_text h.1, Expr.dump_eq_text h.2.1, Expr.dump_eq_text h.2.2]
    rfl

theorem Outline.textAll_append : ∀ os os' : List Outline,
    textAll (os ++ os') = textAll os ++ textAll os'
  | [], _ => rfl
  | o :: os, os' => congrArg (o.text :: ·) (textAll_append os os')

mutual

theorem Command.dump_eq_text : ∀ {c : Command}, c.Canonical → c.dump = c.outline.text
  | .multiple commands, h => by
    have hne : Outline.textAll (Command.outlineAll commands) ≠ [] := by
      rintro hnil
      cases commands with
      | nil => exact absurd h.1 (by decide)
      | cons c cs => cases hnil
    rw [Command.dump, Command.dumpAll_eq_text h.2.2.2, dumpedItems_eq hne]
    rfl
  | .data _, _ | .contentType _ _, _ | .noop, _ | .comment _ none, _ | .comment _ (some _), _ => rfl
  | .output _ _ _, h | .inclusion _ _ _, h => by
    rw [Command.dump, Expr.dump_eq_text h]
    rfl
  | .assign _ _ _, h => by
    rw [Command.dump, Variable.dump_eq_text h.1, Expr.dump_eq_text h.2]
    rfl
  | .name _ _, h => by
    rw [Command.dump, Variable.dump_eq_text h]
    rfl
  | .wrap _ _ _ _, h => by
    rw [Command.dump, Expr.dump_eq_text h.1, Command.dump_eq_text h.2]
    rfl
  | .bind _ _ _ _ _, h => by
    rw [Command.dump, Variable.dump_eq_text h.1, Expr.dump_eq_text h.2.1,
      Command.dump_eq_text h.2.2]
    rfl
  | .loop _ target bounds body, h => by
    have hfields : Outline.textAll (target.outline :: bounds.outlineAll ++ [body.outline]) =
        target.outline.text :: Outline.textAll bounds.outlineAll ++ [body.outline.text] :=
      congrArg (target.outline.text :: ·) (Outline.textAll_append _ _)
    rw [Command.dump, Command.outline, Outline.text, hfields, Variable.dump_eq_text h.1,
      Bounds.dumpAll_eq_text h.2.1, Command.dump_eq_text h.2.2]
  | .define _ _ _ _, h => by
    rw [Command.dump, Variable.dumpAll_eq_text h.2.1, Command.dump_eq_text h.2.2]
    rfl
  | .call _ _ _, h => by
    rw [Command.dump, Expr.dumpAll_eq_text h.2]
    rfl
  | .ifElse _ _ _ _, h => by
    rw [Command.dump, Expr.dump_eq_text h.1, Command.dump_eq_text h.2.1,
      Command.dump_eq_text h.2.2]
    rfl
  | .inline _ body, h => by
    rw [Command.dump, Command.dump_eq_text (c := body) h]
    rfl

theorem Command.dumpAll_eq_text : ∀ {cs : List Command}, Command.CanonicalAll cs →
    Command.dumpAll cs = Outline.textAll (Command.outlineAll cs)
  | [], _ => rfl
  | _ :: _, h => by
    rw [Command.dumpAll, Command.dump_eq_text h.1, Command.dumpAll_eq_text h.2]
    rfl

end

/-! ### The words are legible -/

namespace Outline

theorem legible_word {t : Text} (h : t ≠ [] ∧ t.all isBareChar = true) : (word t).Legible :=
  ⟨h.1, h.2, trivial⟩

end Outline

theorem IsArgumentWord.bare {t : Text} (h : IsArgumentWord t) :
    t ≠ [] ∧ t.all isBareChar = true := by
  refine ⟨h.1, List.all_eq_true.mpr fun c hc => ?_⟩
  rw [isBareChar, List.all_eq_true.mp h.2 c hc]
  rfl

theorem Expr.Kind.bare_tag (k : Expr.Kind) : k.tag ≠ [] ∧ k.tag.all isBareChar = true := by
  cases k with
  | unary op => cases op <;> decide
  | binary op => cases op <;> decide
  | _ => decide

theorem Command.Kind.bare_tag (k : Command.Kind) : k.tag ≠ [] ∧ k.tag.all isBareChar = true := by
  cases k with
  | output form => cases form <;> decide
  | wrap form => cases form <;> decide
  | bind form => cases form <;> decide
  | loop bounds => cases bounds <;> decide
  | inclusion form => cases form <;> decide
  | _ => decide

/-- A tag is legible if its fields are. -/
theorem Expr.legible_node (e : Expr) {fields : List Outline} (h : Outline.LegibleAll fields) :
    (Outline.node e.kind.tag fields).Legible :=
  ⟨e.kind.bare_tag.1, e.kind.bare_tag.2, h⟩

theorem Command.legible_node (c : Command) {fields : List Outline}
    (h : Outline.LegibleAll fields) : (Outline.node c.kind.tag fields).Legible :=
  ⟨c.kind.bare_tag.1, c.kind.bare_tag.2, h⟩

/-- The words of a macro name are legible, and so are the dots between them. -/
theorem MacroName.bare_dump {n : MacroName} (h : n.words.all isPlainWord = true) :
    n.dump ≠ [] ∧ n.dump.all isBareChar = true := by
  have hword : ∀ w ∈ n.words, w ≠ [] ∧ w.all isBareChar = true := fun w hw =>
    (isPlainWord_iff.mp (List.all_eq_true.mp h w hw)).1.bare
  have hdump : n.dump = n.first ++ n.more.flatMap (".".toList ++ ·) :=
    Text.joined_cons ".".toList n.first n.more
  rw [hdump]
  constructor
  · exact List.append_ne_nil_of_left_ne_nil (hword _ List.mem_cons_self).1 _
  · rw [List.all_append, List.all_flatMap, (hword _ List.mem_cons_self).2, Bool.true_and,
      List.all_eq_true]
    intro w hw
    rw [List.all_append, (hword w (List.mem_cons_of_mem _ hw)).2, Bool.and_true]
    decide

mutual

theorem Variable.legible_outline : ∀ {v : Variable}, v.Canonical → v.outline.Legible
  | .name word, h => by
    have hword := (isPlainWord_iff.mp h).1.bare
    exact ⟨by decide, by decide, Outline.legible_word hword, trivial⟩
  | .decNumber digits, h => by
    have hdigits := (isArgumentWord_of_isDecimalWord h).bare
    exact ⟨by decide, by decide, Outline.legible_word hdigits, trivial⟩
  | .hexNumber digits, h => by
    have hdigits := (isArgumentWord_of_isHexWord h).1.bare
    exact ⟨by decide, by decide, Outline.legible_word hdigits, trivial⟩
  | .descend parent child, h =>
    ⟨by decide, by decide, Variable.legible_outline h.1, Variable.legible_outline h.2.2, trivial⟩
  | .expand parent index, h =>
    ⟨by decide, by decide, Variable.legible_outline h.1, Expr.legible_outline h.2, trivial⟩

theorem Expr.legible_outline : ∀ {e : Expr}, e.Canonical → e.outline.Legible
  | .string value, _ => Expr.legible_node (.string value) ⟨trivial, trivial⟩
  | .decimal digits, h =>
    Expr.legible_node (.decimal digits)
      ⟨Outline.legible_word (isArgumentWord_of_isDecimalWord h).bare, trivial⟩
  | .hex digits, h =>
    Expr.legible_node (.hex digits)
      ⟨Outline.legible_word (isArgumentWord_of_isHexWord h).1.bare, trivial⟩
  | .lookup path, h => Expr.legible_node (.lookup path) ⟨Variable.legible_outline h, trivial⟩
  | .apply callee arguments, h =>
    Expr.legible_node (.apply callee arguments)
      ⟨Variable.legible_outline h.1, Expr.legible_outlineAll h.2, trivial⟩
  | .sequence items, h => Expr.legible_node (.sequence items) (Expr.legible_outlineAll h.2)
  | .unary op operand, h =>
    Expr.legible_node (.unary op operand) ⟨Expr.legible_outline h.2, trivial⟩
  | .binary op left right, h =>
    Expr.legible_node (.binary op left right)
      ⟨Expr.legible_outline h.2.1, Expr.legible_outline h.2.2, trivial⟩

theorem Expr.legible_outlineAll : ∀ {es : List Expr}, Expr.CanonicalAll es →
    Outline.LegibleAll (Expr.outlineAll es)
  | [], _ => trivial
  | _ :: _, h => ⟨Expr.legible_outline h.1, Expr.legible_outlineAll h.2⟩

end

theorem Variable.legible_outlineAll : ∀ {vs : List Variable}, (∀ v ∈ vs, v.Canonical) →
    Outline.LegibleAll (Variable.outlineAll vs)
  | [], _ => trivial
  | v :: vs, h => by
    obtain ⟨hv, hvs⟩ := List.forall_mem_cons.mp h
    exact ⟨Variable.legible_outline hv, legible_outlineAll hvs⟩

theorem Outline.legibleAll_append : ∀ {os os' : List Outline}, LegibleAll os → LegibleAll os' →
    LegibleAll (os ++ os')
  | [], _, _, h => h
  | _ :: _, _, h, h' => ⟨h.1, legibleAll_append h.2 h'⟩

theorem Bounds.legible_outlineAll : ∀ {b : Bounds}, b.Canonical → Outline.LegibleAll b.outlineAll
  | .upTo _, h => ⟨Expr.legible_outline h, trivial⟩
  | .range _ _, h => ⟨Expr.legible_outline h.1, Expr.legible_outline h.2, trivial⟩
  | .stepped _ _ _, h =>
    ⟨Expr.legible_outline h.1, Expr.legible_outline h.2.1, Expr.legible_outline h.2.2, trivial⟩

mutual

theorem Command.legible_outline : ∀ {c : Command}, c.Canonical → c.outline.Legible
  | .multiple commands, h =>
    Command.legible_node (.multiple commands) (Command.legible_outlineAll h.2.2.2)
  | .data text, _ => Command.legible_node (.data text) ⟨trivial, trivial⟩
  | .comment p none, _ => Command.legible_node (.comment p none) trivial
  | .comment p (some t), _ => Command.legible_node (.comment p (some t)) ⟨trivial, trivial⟩
  | .output form p e, h =>
    Command.legible_node (.output form p e) ⟨Expr.legible_outline h, trivial⟩
  | .assign p v e, h =>
    Command.legible_node (.assign p v e)
      ⟨Variable.legible_outline h.1, Expr.legible_outline h.2, trivial⟩
  | .name p v, h => Command.legible_node (.name p v) ⟨Variable.legible_outline h, trivial⟩
  | .wrap form p e body, h =>
    Command.legible_node (.wrap form p e body)
      ⟨Expr.legible_outline h.1, Command.legible_outline h.2, trivial⟩
  | .bind form p v e body, h =>
    Command.legible_node (.bind form p v e body) ⟨Variable.legible_outline h.1,
      Expr.legible_outline h.2.1, Command.legible_outline h.2.2, trivial⟩
  | .loop p v b body, h => by
    have hbody : Outline.LegibleAll [body.outline] := ⟨Command.legible_outline h.2.2, trivial⟩
    have hbounds := Outline.legibleAll_append (Bounds.legible_outlineAll h.2.1) hbody
    exact Command.legible_node (.loop p v b body) ⟨Variable.legible_outline h.1, hbounds⟩
  | .define p n vs body, h =>
    Command.legible_node (.define p n vs body) ⟨Outline.legible_word (MacroName.bare_dump h.1),
      Variable.legible_outlineAll h.2.1, Command.legible_outline h.2.2, trivial⟩
  | .call p n es, h =>
    Command.legible_node (.call p n es)
      ⟨Outline.legible_word (MacroName.bare_dump h.1), Expr.legible_outlineAll h.2, trivial⟩
  | .ifElse p e c d, h =>
    Command.legible_node (.ifElse p e c d) ⟨Expr.legible_outline h.1, Command.legible_outline h.2.1,
      Command.legible_outline h.2.2, trivial⟩
  | .inclusion form p e, h =>
    Command.legible_node (.inclusion form p e) ⟨Expr.legible_outline h, trivial⟩
  | .contentType p value, _ =>
    Command.legible_node (.contentType p value) ⟨trivial, trivial⟩
  | .inline p body, h =>
    Command.legible_node (.inline p body) ⟨Command.legible_outline (c := body) h, trivial⟩
  | .noop, _ => Command.legible_node .noop trivial

theorem Command.legible_outlineAll : ∀ {cs : List Command}, Command.CanonicalAll cs →
    Outline.LegibleAll (Command.outlineAll cs)
  | [], _ => trivial
  | _ :: _, h => ⟨Command.legible_outline h.1, Command.legible_outlineAll h.2⟩

end

/-! ### An outline stands for one tree -/

/-- Words behind dots are known from their text. -/
theorem dotted_inj : ∀ {ws ws' : List Text}, ws.all isPlainWord = true →
    ws'.all isPlainWord = true →
      ws.flatMap (".".toList ++ ·) = ws'.flatMap (".".toList ++ ·) → ws = ws'
  | [], [], _, _, _ => rfl
  | [], _ :: _, _, _, h | _ :: _, [], _, _, h => by simp at h
  | w :: ws, w' :: ws', hw, hw', h => by
    rw [List.all_cons, Bool.and_eq_true] at hw hw'
    have hcut : w ++ ws.flatMap (".".toList ++ ·) = w' ++ ws'.flatMap (".".toList ++ ·) := by
      simpa using h
    have hstops : ∀ us : List Text, Text.Stops isWordChar (us.flatMap (".".toList ++ ·)) := by
      intro us
      cases us with
      | nil => trivial
      | cons u us =>
        show isWordChar '.' = false
        decide
    obtain ⟨rfl, hmore⟩ := Text.run_append_inj (isPlainWord_iff.mp hw.1).1.2
      (isPlainWord_iff.mp hw'.1).1.2 (hstops ws) (hstops ws') hcut
    rw [dotted_inj hw.2 hw'.2 hmore]

/-- A macro name is known from its words with dots between them. -/
theorem MacroName.dump_inj {n n' : MacroName} (h : n.words.all isPlainWord = true)
    (h' : n'.words.all isPlainWord = true) (hdump : n.dump = n'.dump) : n = n' := by
  have hdotted : ∀ m : MacroName, m.words.flatMap (".".toList ++ ·) = '.' :: m.dump := by
    intro m
    rw [dump, words, Text.joined_cons]
    rfl
  have hwords : n.words = n'.words :=
    dotted_inj h h' (by rw [hdotted, hdotted, hdump])
  obtain ⟨hfirst, hmore⟩ := List.cons.inj hwords
  cases n
  cases n'
  exact congrArg₂ MacroName.mk hfirst hmore

theorem Variable.Kind.tag_inj {k k' : Variable.Kind} (h : k.tag = k'.tag) : k = k' := by
  have hkinds := congrArg ofTag? h
  rw [ofTag?_tag, ofTag?_tag] at hkinds
  exact Option.some.inj hkinds

theorem Expr.Kind.tag_inj {k k' : Expr.Kind} (h : k.tag = k'.tag) : k = k' := by
  have hkinds := congrArg ofTag? h
  rw [ofTag?_tag, ofTag?_tag] at hkinds
  exact Option.some.inj hkinds

theorem Command.Kind.tag_inj {k k' : Command.Kind} (h : k.tag = k'.tag) : k = k' := by
  have hkinds := congrArg ofTag? h
  rw [ofTag?_tag, ofTag?_tag] at hkinds
  exact Option.some.inj hkinds

/-- The kind of a variable is told by the word of its outline. -/
theorem Variable.kind_of_outline {v v' : Variable} (h : v.outline = v'.outline) :
    v.kind = v'.kind := by
  have htag : ∀ v : Variable, ∃ fields, v.outline = .node v.kind.tag fields := by
    intro v
    cases v <;> exact ⟨_, rfl⟩
  obtain ⟨fields, hv⟩ := htag v
  obtain ⟨fields', hv'⟩ := htag v'
  rw [hv, hv'] at h
  exact Kind.tag_inj (Outline.node.inj h).1

theorem Expr.kind_of_outline {e e' : Expr} (h : e.outline = e'.outline) : e.kind = e'.kind := by
  have htag : ∀ e : Expr, ∃ fields, e.outline = .node e.kind.tag fields := by
    intro e
    cases e <;> exact ⟨_, rfl⟩
  obtain ⟨fields, he⟩ := htag e
  obtain ⟨fields', he'⟩ := htag e'
  rw [he, he'] at h
  exact Kind.tag_inj (Outline.node.inj h).1

theorem Command.kind_of_outline {c c' : Command} (h : c.outline = c'.outline) :
    c.kind = c'.kind := by
  have htag : ∀ c : Command, ∃ fields, c.outline = .node c.kind.tag fields := by
    intro c
    cases c <;> exact ⟨_, rfl⟩
  obtain ⟨fields, hc⟩ := htag c
  obtain ⟨fields', hc'⟩ := htag c'
  rw [hc, hc'] at h
  exact Kind.tag_inj (Outline.node.inj h).1

mutual

/-- An outline stands for one variable. -/
theorem Variable.eq_of_outline : ∀ {v v' : Variable}, v.kind = v'.kind →
    v.outline = v'.outline → v = v'
  | .name _, .name _, _, h | .decNumber _, .decNumber _, _, h
  | .hexNumber _, .hexNumber _, _, h => by
    simp only [Variable.outline, Outline.node.injEq, List.cons.injEq, and_true, true_and] at h
    rw [h]
  | .descend _ _, .descend _ _, _, h => by
    simp only [Variable.outline, Outline.node.injEq, List.cons.injEq, and_true, true_and] at h
    obtain ⟨hparent, hchild⟩ := h
    rw [Variable.eq_of_outline (Variable.kind_of_outline hparent) hparent,
      Variable.eq_of_outline (Variable.kind_of_outline hchild) hchild]
  | .expand _ _, .expand _ _, _, h => by
    simp only [Variable.outline, Outline.node.injEq, List.cons.injEq, and_true, true_and] at h
    obtain ⟨hparent, hindex⟩ := h
    rw [Variable.eq_of_outline (Variable.kind_of_outline hparent) hparent,
      Expr.eq_of_outline (Expr.kind_of_outline hindex) hindex]

/-- An outline stands for one expression. -/
theorem Expr.eq_of_outline : ∀ {e e' : Expr}, e.kind = e'.kind → e.outline = e'.outline → e = e'
  | .string _, .string _, _, h => by
    simp only [Expr.outline, Outline.node.injEq, List.cons.injEq, Outline.quoted.injEq, and_true,
      true_and] at h
    rw [h]
  | .decimal _, .decimal _, _, h | .hex _, .hex _, _, h => by
    simp only [Expr.outline, Outline.node.injEq, List.cons.injEq, and_true, true_and] at h
    rw [h]
  | .lookup _, .lookup _, _, h => by
    simp only [Expr.outline, Outline.node.injEq, List.cons.injEq, and_true, true_and] at h
    rw [Variable.eq_of_outline (Variable.kind_of_outline h) h]
  | .apply _ _, .apply _ _, _, h => by
    simp only [Expr.outline, Outline.node.injEq, List.cons.injEq, Outline.list.injEq, and_true,
      true_and] at h
    obtain ⟨hcallee, harguments⟩ := h
    rw [Variable.eq_of_outline (Variable.kind_of_outline hcallee) hcallee,
      Expr.eq_of_outlineAll harguments]
  | .sequence _, .sequence _, _, h => by
    rw [Expr.eq_of_outlineAll (Outline.node.inj h).2]
  | .unary _ _, .unary _ _, hk, h => by
    simp only [Expr.outline, Outline.node.injEq, List.cons.injEq, and_true] at h
    rw [Expr.Kind.unary.inj hk, Expr.eq_of_outline (Expr.kind_of_outline h.2) h.2]
  | .binary _ _ _, .binary _ _ _, hk, h => by
    simp only [Expr.outline, Outline.node.injEq, List.cons.injEq, and_true] at h
    obtain ⟨-, hleft, hright⟩ := h
    rw [Expr.Kind.binary.inj hk, Expr.eq_of_outline (Expr.kind_of_outline hleft) hleft,
      Expr.eq_of_outline (Expr.kind_of_outline hright) hright]
  | .noop, .noop, _, _ => rfl

theorem Expr.eq_of_outlineAll : ∀ {es es' : List Expr},
    Expr.outlineAll es = Expr.outlineAll es' → es = es'
  | [], [], _ => rfl
  | [], _ :: _, h | _ :: _, [], h => by cases h
  | _ :: _, _ :: _, h => by
    obtain ⟨he, hes⟩ := List.cons.inj h
    rw [Expr.eq_of_outline (Expr.kind_of_outline he) he, Expr.eq_of_outlineAll hes]

end

theorem Variable.outline_inj {v v' : Variable} (h : v.outline = v'.outline) : v = v' :=
  eq_of_outline (kind_of_outline h) h

theorem Expr.outline_inj {e e' : Expr} (h : e.outline = e'.outline) : e = e' :=
  eq_of_outline (kind_of_outline h) h

theorem Variable.eq_of_outlineAll : ∀ {vs vs' : List Variable},
    Variable.outlineAll vs = Variable.outlineAll vs' → vs = vs'
  | [], [], _ => rfl
  | [], _ :: _, h | _ :: _, [], h => by cases h
  | _ :: _, _ :: _, h => by
    obtain ⟨hv, hvs⟩ := List.cons.inj h
    rw [outline_inj hv, eq_of_outlineAll hvs]

theorem Bounds.eq_of_outlineAll : ∀ {b b' : Bounds}, b.outlineAll = b'.outlineAll → b = b'
  | .upTo _, .upTo _, h => by
    rw [Expr.outline_inj (List.cons.inj h).1]
  | .range _ _, .range _ _, h => by
    obtain ⟨hstart, hmore⟩ := List.cons.inj h
    rw [Expr.outline_inj hstart, Expr.outline_inj (List.cons.inj hmore).1]
  | .stepped _ _ _, .stepped _ _ _, h => by
    obtain ⟨hstart, hmore⟩ := List.cons.inj h
    obtain ⟨hstop, hlast⟩ := List.cons.inj hmore
    rw [Expr.outline_inj hstart, Expr.outline_inj hstop,
      Expr.outline_inj (List.cons.inj hlast).1]
  | .upTo _, .range _ _, h | .upTo _, .stepped _ _ _, h | .range _ _, .upTo _, h
  | .range _ _, .stepped _ _ _, h | .stepped _ _ _, .upTo _, h
  | .stepped _ _ _, .range _ _, h => by
    simp [outlineAll] at h

namespace Command

/-- A canonical command with the same outline is the same but for its positions. -/
def Known (c : Command) : Prop :=
  ∀ c' : Command, c'.Canonical → c.outline = c'.outline → c.unplaced = c'.unplaced

/-- Only a command of the same kind can have the same outline. -/
theorem known_of_kind {c : Command} (h : ∀ c' : Command, c'.Canonical → c.kind = c'.kind →
    c.outline = c'.outline → c.unplaced = c'.unplaced) : c.Known :=
  fun c' h' ho => h c' h' (kind_of_outline ho) ho

theorem unplacedAll_of_known : ∀ {cs cs' : List Command}, (∀ c ∈ cs, c.Known) →
    CanonicalAll cs' → outlineAll cs = outlineAll cs' →
      relocateAll (fun _ => ⟨0, 0, 0⟩) cs = relocateAll (fun _ => ⟨0, 0, 0⟩) cs'
  | [], [], _, _, _ => rfl
  | [], _ :: _, _, _, ho | _ :: _, [], _, _, ho => by cases ho
  | _ :: _, _ :: _, h, h', ho => by
    obtain ⟨hc, hcs⟩ := List.cons.inj ho
    rw [List.forall_mem_cons] at h
    exact congrArg₂ List.cons (h.1 _ h'.1 hc) (unplacedAll_of_known h.2 h'.2 hcs)

section
variable {p : Position} {e : Expr} {v : Variable} {t : Text} {n : MacroName} {body : Command}

/-! #### Commands without others in them -/

theorem known_data : (data t).Known := by
  refine known_of_kind fun c' _ hk ho => ?_
  cases c' with
  | data t' =>
    simp only [outline, Outline.node.injEq, List.cons.injEq, Outline.quoted.injEq, and_true,
      true_and] at ho
    rw [ho]
  | _ => cases hk

theorem known_comment {text : Option Text} : (comment p text).Known := by
  refine known_of_kind fun c' _ hk ho => ?_
  cases c' with
  | comment p' text' =>
    have htext : text = text' := by
      cases text <;> cases text' <;> simp_all [outline]
    rw [htext]
    rfl
  | _ => cases hk

theorem known_contentType : (contentType p t).Known := by
  refine known_of_kind fun c' _ hk ho => ?_
  cases c' with
  | contentType p' t' =>
    simp only [outline, Outline.node.injEq, List.cons.injEq, Outline.quoted.injEq, and_true,
      true_and] at ho
    rw [ho]
    rfl
  | _ => cases hk

theorem known_output {form : OutputForm} : (output form p e).Known := by
  refine known_of_kind fun c' _ hk ho => ?_
  cases c' with
  | output form' p' e' =>
    simp only [outline, Outline.node.injEq, List.cons.injEq, and_true] at ho
    rw [Kind.output.inj hk, Expr.outline_inj ho.2]
    rfl
  | _ => cases hk

theorem known_inclusion {form : IncludeForm} : (inclusion form p e).Known := by
  refine known_of_kind fun c' _ hk ho => ?_
  cases c' with
  | inclusion form' p' e' =>
    simp only [outline, Outline.node.injEq, List.cons.injEq, and_true] at ho
    rw [Kind.inclusion.inj hk, Expr.outline_inj ho.2]
    rfl
  | _ => cases hk

theorem known_assign : (assign p v e).Known := by
  refine known_of_kind fun c' _ hk ho => ?_
  cases c' with
  | assign p' v' e' =>
    simp only [outline, Outline.node.injEq, List.cons.injEq, and_true, true_and] at ho
    rw [Variable.outline_inj ho.1, Expr.outline_inj ho.2]
    rfl
  | _ => cases hk

theorem known_name : (name p v).Known := by
  refine known_of_kind fun c' _ hk ho => ?_
  cases c' with
  | name p' v' =>
    simp only [outline, Outline.node.injEq, List.cons.injEq, and_true, true_and] at ho
    rw [Variable.outline_inj ho]
    rfl
  | _ => cases hk

theorem known_call {arguments : List Expr} (hn : n.words.all isPlainWord = true) :
    (call p n arguments).Known := by
  refine known_of_kind fun c' h' hk ho => ?_
  cases c' with
  | call p' n' arguments' =>
    simp only [outline, Outline.node.injEq, List.cons.injEq, Outline.list.injEq, and_true,
      true_and] at ho
    rw [MacroName.dump_inj hn h'.1 ho.1, Expr.eq_of_outlineAll ho.2]
    rfl
  | _ => cases hk

theorem known_noop : noop.Known := by
  refine known_of_kind fun c' _ hk _ => ?_
  cases c' with
  | noop => rfl
  | _ => cases hk

/-! #### Commands around others -/

theorem known_wrap {form : WrapForm} (hbody : body.Known) : (wrap form p e body).Known := by
  refine known_of_kind fun c' h' hk ho => ?_
  cases c' with
  | wrap form' p' e' body' =>
    simp only [outline, Outline.node.injEq, List.cons.injEq, and_true] at ho
    obtain ⟨-, hexpr, hlast⟩ := ho
    rw [Kind.wrap.inj hk, Expr.outline_inj hexpr]
    exact congrArg (wrap _ _ _) (hbody body' h'.2 hlast)
  | _ => cases hk

theorem known_bind {form : BindForm} (hbody : body.Known) : (bind form p v e body).Known := by
  refine known_of_kind fun c' h' hk ho => ?_
  cases c' with
  | bind form' p' v' e' body' =>
    simp only [outline, Outline.node.injEq, List.cons.injEq, and_true] at ho
    obtain ⟨-, htarget, hexpr, hlast⟩ := ho
    rw [Kind.bind.inj hk, Variable.outline_inj htarget, Expr.outline_inj hexpr]
    exact congrArg (bind _ _ _ _) (hbody body' h'.2.2 hlast)
  | _ => cases hk

theorem known_loop {b : Bounds} (hbody : body.Known) : (loop p v b body).Known := by
  refine known_of_kind fun c' h' hk ho => ?_
  cases c' with
  | loop p' v' b' body' =>
    obtain ⟨htarget, hfields⟩ := List.cons.inj (Outline.node.inj ho).2
    obtain ⟨hbounds, hlast⟩ := List.append_inj' hfields rfl
    rw [Variable.outline_inj htarget, Bounds.eq_of_outlineAll hbounds]
    exact congrArg (loop _ _ _) (hbody body' h'.2.2 (List.cons.inj hlast).1)
  | _ => cases hk

theorem known_define {parameters : List Variable} (hn : n.words.all isPlainWord = true)
    (hbody : body.Known) : (define p n parameters body).Known := by
  refine known_of_kind fun c' h' hk ho => ?_
  cases c' with
  | define p' n' parameters' body' =>
    simp only [outline, Outline.node.injEq, List.cons.injEq, Outline.list.injEq, and_true,
      true_and] at ho
    obtain ⟨hcalled, hparameters, hlast⟩ := ho
    rw [MacroName.dump_inj hn h'.1 hcalled, Variable.eq_of_outlineAll hparameters]
    exact congrArg (define _ _ _) (hbody body' h'.2.2 hlast)
  | _ => cases hk

theorem known_ifElse {otherwise : Command} (hbody : body.Known) (hotherwise : otherwise.Known) :
    (ifElse p e body otherwise).Known := by
  refine known_of_kind fun c' h' hk ho => ?_
  cases c' with
  | ifElse p' e' body' otherwise' =>
    simp only [outline, Outline.node.injEq, List.cons.injEq, and_true, true_and] at ho
    obtain ⟨hcondition, hblock, hlast⟩ := ho
    rw [Expr.outline_inj hcondition]
    exact congrArg₂ (ifElse _ _) (hbody body' h'.2.1 hblock) (hotherwise otherwise' h'.2.2 hlast)
  | _ => cases hk

theorem known_inline (hbody : body.Known) : (inline p body).Known := by
  refine known_of_kind fun c' h' hk ho => ?_
  cases c' with
  | inline p' body' =>
    exact congrArg (inline _) (hbody body' h' (List.cons.inj (Outline.node.inj ho).2).1)
  | _ => cases hk

theorem known_multiple {commands : List Command} (hall : ∀ c ∈ commands, c.Known) :
    (multiple commands).Known := by
  refine known_of_kind fun c' h' hk ho => ?_
  cases c' with
  | multiple commands' =>
    exact congrArg multiple (unplacedAll_of_known hall h'.2.2.2 (Outline.node.inj ho).2)
  | _ => cases hk

end

end Command

mutual

/-- **An outline stands for one command** but for its positions. -/
theorem Command.known : ∀ {c : Command}, c.Canonical → c.Known
  | .multiple _, h => Command.known_multiple (Command.knownAll h.2.2.2)
  | .data _, _ => Command.known_data
  | .comment _ _, _ => Command.known_comment
  | .output _ _ _, _ => Command.known_output
  | .assign _ _ _, _ => Command.known_assign
  | .name _ _, _ => Command.known_name
  | .wrap _ _ _ _, h => Command.known_wrap (Command.known h.2)
  | .bind _ _ _ _ _, h => Command.known_bind (Command.known h.2.2)
  | .loop _ _ _ _, h => Command.known_loop (Command.known h.2.2)
  | .define _ _ _ _, h => Command.known_define h.1 (Command.known h.2.2)
  | .call _ _ _, h => Command.known_call h.1
  | .ifElse _ _ _ _, h => Command.known_ifElse (Command.known h.2.1) (Command.known h.2.2)
  | .inclusion _ _ _, _ => Command.known_inclusion
  | .contentType _ _, _ => Command.known_contentType
  | .inline _ body, h => Command.known_inline (Command.known (c := body) h)
  | .noop, _ => Command.known_noop

theorem Command.knownAll : ∀ {cs : List Command}, Command.CanonicalAll cs → ∀ c ∈ cs, c.Known
  | [], _ => by simp
  | _ :: _, h => List.forall_mem_cons.mpr ⟨Command.known h.1, Command.knownAll h.2⟩

end

/-! ### Positions are left out -/

namespace Command

mutual

theorem dump_relocate (f : Position → Position) : ∀ c : Command, (c.relocate f).dump = c.dump
  | .multiple commands => by rw [relocate, dump, dump, dumpAll_relocateAll f commands]
  | .wrap _ _ _ body | .bind _ _ _ _ body | .loop _ _ _ body | .define _ _ _ body
  | .inline _ body => by rw [relocate, dump, dump, dump_relocate f body]
  | .ifElse _ _ block otherwise => by
    rw [relocate, dump, dump, dump_relocate f block, dump_relocate f otherwise]
  | .data _ | .comment _ _ | .output _ _ _ | .assign _ _ _ | .name _ _ | .call _ _ _
  | .inclusion _ _ _ | .contentType _ _ | .noop => rfl

theorem dumpAll_relocateAll (f : Position → Position) : ∀ cs : List Command,
    dumpAll (relocateAll f cs) = dumpAll cs
  | [] => rfl
  | c :: cs => by
    rw [relocateAll, dumpAll, dumpAll, dump_relocate f c, dumpAll_relocateAll f cs]

end

/-- **The compact rendering of a canonical tree stands for one tree** but for
its positions. -/
theorem dump_eq_iff {c c' : Command} (h : c.Canonical) (h' : c'.Canonical) :
    c.dump = c'.dump ↔ c.unplaced = c'.unplaced := by
  constructor
  · intro hdump
    rw [dump_eq_text h, dump_eq_text h'] at hdump
    have htexts : c.outline.text ++ [] = c'.outline.text ++ [] := congrArg (· ++ []) hdump
    have hend : Outline.Bounded [] := trivial
    obtain ⟨houtline, -⟩ := Outline.text_append_inj (legible_outline h) (legible_outline h')
      hend hend htexts
    exact known h c' h' houtline
  · intro hsame
    calc c.dump = c.unplaced.dump := (dump_relocate _ c).symm
      _ = c'.unplaced.dump := by rw [hsame]
      _ = c'.dump := dump_relocate _ c'

end Command
end ClearSilver
