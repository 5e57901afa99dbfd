/-
# The lexemes of a written command

A tag is written with one blank behind its opening and before its end, which
belong to those marks outside the arguments. Literal text ends where a tag
opens or the text ends, so tidy commands can stand beside each other, and a
body before the tag that ends it (`Command.lexes`).

Key definitions: `headLexemes`, `closeLexemes`, `Command.lexemes`.
Key theorems: `lexes_head`, `lexes_close`, `Command.lexes`.
-/
import ClearSilver.Proofs.Grammar.Spelling
import ClearSilver.Proofs.Parser.CommandPasses
import ClearSilver.Proofs.Written.Expression

namespace ClearSilver

/-! ### Lexemes -/

/-- The lexemes of a macro name. -/
def MacroName.lexemes (n : MacroName) : List Lexeme :=
  (.word, n.first) :: n.more.flatMap fun w => [Lexeme.symbol .dot, (.word, w)]

def Bounds.lexemes : Bounds → List Lexeme
  | .upTo stop => stop.lexemes
  | .range start stop => start.lexemes ++ Lexeme.symbol .comma :: stop.lexemes
  | .stepped start stop step =>
    start.lexemes ++ Lexeme.symbol .comma :: (stop.lexemes ++ Lexeme.symbol .comma :: step.lexemes)

/-- The opening of a tag. -/
def Lexeme.tagOpen : Lexeme := (.tagOpen, "<?cs ")

/-- The end of a tag behind its arguments or a comment. -/
def Lexeme.tagEnd : Lexeme := (.tagClose, "?>")

/-- The end of a tag without arguments, with the blank before it. -/
def Lexeme.bareEnd : Lexeme := (.tagClose, " ?>")

def Lexeme.keyword (k : Keyword) : Lexeme := (.keyword k, k.text)

/-- `keyword:arguments` as a tag. -/
def headLexemes (k : Keyword) (arguments : List Lexeme) : List Lexeme :=
  Lexeme.tagOpen :: Lexeme.keyword k :: (.softDelimiter, [':']) :: (arguments ++ [Lexeme.tagEnd])

/-- A keyword as a tag. -/
def bareLexemes (k : Keyword) : List Lexeme :=
  [Lexeme.tagOpen, Lexeme.keyword k, Lexeme.bareEnd]

/-- The close tag of a keyword's block. -/
def closeLexemes (k : Keyword) : List Lexeme :=
  [Lexeme.tagOpen, Lexeme.symbol .slash, Lexeme.keyword k, Lexeme.bareEnd]

/-- `variable = value` -/
def bindingLexemes (target : Variable) (value : List Lexeme) : List Lexeme :=
  target.lexemes ++ Lexeme.symbol .assign :: value

/-- A macro name with its list in parentheses. -/
def macroLexemes (called : MacroName) (items : List (List Lexeme)) : List Lexeme :=
  called.lexemes ++ Lexeme.symbol .leftParen ::
    (Lexeme.listed items ++ [Lexeme.symbol .rightParen])

mutual

/-- The lexemes that a command is written as. -/
def Command.lexemes : Command → List Lexeme
  | .multiple commands => Command.lexemesAll commands
  | .data text => [(.data, text)]
  | .comment _ text => Lexeme.tagOpen :: (.commentStart, "#") ::
      ((text.map fun t => ((.comment, t) : Lexeme)).toList ++ [Lexeme.tagEnd])
  | .output form _ expression => headLexemes form.keyword expression.lexemes
  | .assign _ target expression => headLexemes .set (bindingLexemes target expression.lexemes)
  | .name _ target => headLexemes .name target.lexemes
  | .wrap form _ expression body =>
    headLexemes form.keyword expression.lexemes ++ (body.lexemes ++ closeLexemes form.keyword)
  | .bind form _ target expression body =>
    headLexemes form.keyword (bindingLexemes target expression.lexemes) ++
      (body.lexemes ++ closeLexemes form.keyword)
  | .loop _ target bounds body =>
    headLexemes .loop (bindingLexemes target bounds.lexemes) ++ (body.lexemes ++ closeLexemes .loop)
  | .define _ called parameters body =>
    headLexemes .defTag (macroLexemes called (parameters.map Variable.lexemes)) ++
      (body.lexemes ++ closeLexemes .defTag)
  | .call _ called arguments =>
    headLexemes .call (macroLexemes called (Expr.lexemesAll arguments))
  | .ifElse _ condition block otherwise =>
    headLexemes .ifTag condition.lexemes ++ (block.lexemes ++ (bareLexemes .elseTag ++
      (otherwise.lexemes ++ closeLexemes .ifTag)))
  | .inclusion form _ target => Lexeme.tagOpen :: Lexeme.keyword form.keyword ::
      (form.delimiterKind, [form.delimiter]) :: (target.lexemes ++ [Lexeme.tagEnd])
  | .contentType _ value => headLexemes .contentType [(.string, value.inQuotes)]
  | .inline _ body => bareLexemes .inline ++ (body.lexemes ++ closeLexemes .inline)
  | .noop => []

def Command.lexemesAll : List Command → List Lexeme
  | [] => []
  | c :: cs => c.lexemes ++ Command.lexemesAll cs

end

/-! ### Tags -/

variable {r t t' : Text} {l : Lexeme} {ls : List Lexeme} {m' : Mode}

theorem tagWritten_append (inside r : Text) :
    tagWritten inside ++ r = "<?cs " ++ (inside ++ (" ?>" ++ r)) :=
  (List.append_assoc _ _ _).trans (List.append_assoc _ _ _)

theorem lexes_tagOpen (ht : t.Stops isBlank) (h : Lexes .command t ls m' t') :
    Lexes .content ("<?cs " ++ t) (Lexeme.tagOpen :: ls) m' t' :=
  Lexes.more (Mode.skips_nil _) (x := "<?cs ") ⟨" ", by simp, rfl, rfl⟩ ht h

theorem lexes_keyword (k : Keyword) (ht : t.Stops fun c => isWordChar c || c = '-')
    (h : Lexes .command t ls m' t') : Lexes .command (k.text ++ t) (Lexeme.keyword k :: ls) m' t' :=
  Lexes.more (Mode.skips_nil _) (x := k.text) k.isLexeme_text ht h

theorem Keyword.stops_isBlank (k : Keyword) (t : Text) : Text.Stops isBlank (k.text ++ t) := by
  cases k <;> rfl

theorem lexes_softDelimiter (ht : t.Stops isBlank) (h : Lexes .arguments t ls m' t') :
    Lexes .command (':' :: t) ((.softDelimiter, [':']) :: ls) m' t' :=
  Lexes.more (Mode.skips_nil _) (x := [':']) (.inl ⟨[], [], rfl, rfl, rfl⟩)
    ⟨ht, fun h => by cases h⟩ h

theorem lexes_hardDelimiter (ht : t.Stops isBlank) (h : Lexes .arguments t ls m' t') :
    Lexes .command ('!' :: t) ((.hardDelimiter, ['!']) :: ls) m' t' :=
  Lexes.more (Mode.skips_nil _) (x := ['!']) ⟨[], [], rfl, rfl, rfl⟩ ht h

/-- The end of a tag behind its arguments, past a blank. -/
theorem lexes_end (r : Text) : Lexes .arguments (" ?>" ++ r) [Lexeme.tagEnd] .content r :=
  lexes_blank (by simp) (Lexes.more (Mode.skips_nil _) (x := "?>") rfl trivial (.none _ r))

/-- The end of a tag without arguments, with the blank before it. -/
theorem lexes_bareEnd (r : Text) : Lexes .command (" ?>" ++ r) [Lexeme.bareEnd] .content r :=
  Lexes.more (Mode.skips_nil _) (x := " ?>") ⟨" ", rfl, rfl⟩ trivial (.none _ r)

theorem lexes_bareKeyword (k : Keyword) (r : Text) :
    Lexes .command (k.text ++ (" ?>" ++ r)) [Lexeme.keyword k, Lexeme.bareEnd] .content r :=
  lexes_keyword k (t := " ?>" ++ r) rfl (lexes_bareEnd r)

theorem lexes_head (k : Keyword) (h : Spells t ls) (r : Text) :
    Lexes .content (headWritten k t ++ r) (headLexemes k ls) .content r := by
  have hargs := (h.lexes (" ?>" ++ r) rfl).append (lexes_end r)
  have htag := lexes_tagOpen (k.stops_isBlank _) (lexes_keyword k (t := ':' :: (t ++ (" ?>" ++ r)))
    rfl (lexes_softDelimiter (h.stops_isBlank _) hargs))
  rw [headWritten, tagWritten_append, List.append_assoc]
  exact htag

theorem lexes_bare (k : Keyword) (r : Text) :
    Lexes .content (tagWritten k.text ++ r) (bareLexemes k) .content r := by
  rw [tagWritten_append]
  exact lexes_tagOpen (k.stops_isBlank _) (lexes_bareKeyword k r)

theorem lexes_close (k : Keyword) (r : Text) :
    Lexes .content (closeWritten k ++ r) (closeLexemes k) .content r := by
  have hslash : Lexes .command ('/' :: (k.text ++ (" ?>" ++ r)))
      [Lexeme.symbol .slash, Lexeme.keyword k, Lexeme.bareEnd] .content r :=
    Lexes.more (Mode.skips_nil _) (x := "/") ⟨rfl, rfl⟩ trivial (lexes_bareKeyword k r)
  rw [closeWritten, tagWritten_append]
  exact lexes_tagOpen rfl hslash

theorem Bounds.spells {b : Bounds} (h : b.Canonical) : Spells b.written b.lexemes := by
  cases b with
  | upTo stop => exact stop.spells h
  | range start stop => exact (start.spells h.1).comma (stop.spells h.2)
  | stepped start stop step =>
    have := ((start.spells h.1).comma (stop.spells h.2.1)).comma (step.spells h.2.2)
    simpa only [Bounds.written, Bounds.lexemes, List.append_assoc, List.cons_append] using this

theorem spells_binding {target : Variable} (hv : target.Canonical) (h : Spells t ls) :
    Spells (bindingWritten target t) (bindingLexemes target ls) := by
  rw [bindingWritten, bindingLexemes, List.append_assoc]
  refine (target.spells hv).append (fun r => rfl) fun r hr => ?_
  have hassign := lexes_symbol (s := .assign) (t := ' ' :: (t ++ r)) rfl
    (lexes_blank h.ne_nil (h.lexes r hr))
  exact lexes_blank (by simp) hassign

theorem spells_words : ∀ {more : List Text} {first : Text}, isPlainWord first = true →
    more.all isPlainWord = true → Spells (Text.joined "." (first :: more))
      ((.word, first) :: more.flatMap fun w => [Lexeme.symbol .dot, (.word, w)])
  | [], _, h, _ => spells_word (.inr (.inr rfl)) h
  | w :: more, first, h, hmore => by
    rw [List.all_cons, Bool.and_eq_true] at hmore
    rw [Text.joined, List.append_assoc]
    refine (spells_word (.inr (.inr rfl)) h).append (fun r => rfl) fun r hr => ?_
    exact lexes_symbol (s := .dot) (stops_of_not_grows (fun _ => rfl) _)
      ((spells_words hmore.1 hmore.2).lexes r hr)

theorem MacroName.spells {n : MacroName} (h : n.words.all isPlainWord = true) :
    Spells n.written n.lexemes := by
  rw [MacroName.words, List.all_cons, Bool.and_eq_true] at h
  exact spells_words h.1 h.2

theorem Variable.spellsAll : ∀ {vs : List Variable}, (∀ v ∈ vs, v.Canonical) →
    SpellsAll (vs.map Variable.written) (vs.map Variable.lexemes)
  | [], _ => .nil
  | v :: _, h => .cons (v.spells (h v List.mem_cons_self))
      (Variable.spellsAll fun w hw => h w (List.mem_cons_of_mem _ hw))

theorem spells_macroHead {called : MacroName} {items : List Text} {lss : List (List Lexeme)}
    (h : called.words.all isPlainWord = true) (hs : SpellsAll items lss) :
    Spells (macroWritten called items) (macroLexemes called lss) :=
  (MacroName.spells h).parenthesized hs

theorem lexes_inclusion (form : IncludeForm) (h : Spells t ls) (r : Text) :
    Lexes .content (tagWritten (form.keyword.text ++ form.delimiter :: t) ++ r)
      (Lexeme.tagOpen :: Lexeme.keyword form.keyword ::
        (form.delimiterKind, [form.delimiter]) :: (ls ++ [Lexeme.tagEnd])) .content r := by
  have hargs := (h.lexes (" ?>" ++ r) rfl).append (lexes_end r)
  have hdelim : Lexes .command (form.delimiter :: (t ++ (" ?>" ++ r)))
      ((form.delimiterKind, [form.delimiter]) :: (ls ++ [Lexeme.tagEnd])) .content r := by
    cases form
    case soft | lsoft => exact lexes_softDelimiter (h.stops_isBlank _) hargs
    case hard | lhard => exact lexes_hardDelimiter (h.stops_isBlank _) hargs
  rw [tagWritten_append, List.append_assoc]
  exact lexes_tagOpen (form.keyword.stops_isBlank _)
    (lexes_keyword form.keyword (by cases form <;> rfl) hdelim)

theorem lexes_comment {text : Option Text}
    (h : ∀ t ∈ text, t ≠ [] ∧ t.occurs closesTag = false) (r : Text) :
    Lexes .content ("<?cs #" ++ text.getD [] ++ "?>" ++ r)
      (Lexeme.tagOpen :: (.commentStart, "#") ::
        ((text.map fun t => ((.comment, t) : Lexeme)).toList ++ [Lexeme.tagEnd])) .content r := by
  have hend : Lexes .comment ("?>" ++ r) [Lexeme.tagEnd] .content r :=
    Lexes.more (Mode.skips_nil _) (x := "?>") rfl trivial (.none _ r)
  have hstart : ∀ {t : Text} {ls : List Lexeme}, Lexes .comment t ls .content r →
      Lexes .content ("<?cs #" ++ t) (Lexeme.tagOpen :: (.commentStart, "#") :: ls) .content r :=
    fun {t} {_} ht => lexes_tagOpen (t := '#' :: t) rfl
      (Lexes.more (Mode.skips_nil _) (x := "#") rfl trivial ht)
  cases text with
  | none => exact hstart hend
  | some t =>
    obtain ⟨hne, hocc⟩ := h t rfl
    have ht : Lexes .comment (t ++ ("?>" ++ r)) [(.comment, t), Lexeme.tagEnd] .content r :=
      Lexes.more (Mode.skips_nil _) (x := t) ⟨hne, hocc⟩ (.inr rfl) hend
    rw [Option.getD_some, List.append_assoc, List.append_assoc]
    exact hstart ht

/-! ### Commands -/

/-- A tag opens where a command is written that is one. -/
theorem Command.IsTag.opensTag {c : Command} (h : c.IsTag) (r : Text) :
    opensTag (c.written ++ r) = true := by
  obtain ⟨hs, hd, -⟩ := h
  cases c with
  | multiple _ | noop => cases hs
  | data _ => cases hd
  | _ => rfl

section

variable {head body : Text} {hs bs : List Lexeme}
  (hh : ∀ r, Lexes .content (head ++ r) hs .content r)
  (hb : ∀ r, opensTag r = true → Lexes .content (body ++ r) bs .content r)
include hh hb

/-- A block between its head and its close tag. -/
theorem lexes_block {k : Keyword} (r : Text) : Lexes .content (head ++ body ++ closeWritten k ++ r)
    (hs ++ (bs ++ closeLexemes k)) .content r := by
  rw [List.append_assoc, List.append_assoc]
  exact (hh _).append ((hb _ rfl).append (lexes_close k r))

/-- Two blocks, with an `else` between them. -/
theorem lexes_branches {otherwise : Text} {os : List Lexeme}
    (ho : ∀ r, opensTag r = true → Lexes .content (otherwise ++ r) os .content r) (r : Text) :
    Lexes .content
      (head ++ body ++ tagWritten Keyword.elseTag.text ++ otherwise ++ closeWritten .ifTag ++ r)
      (hs ++ (bs ++ (bareLexemes .elseTag ++ (os ++ closeLexemes .ifTag)))) .content r := by
  have hrest := lexes_block (k := .ifTag) (lexes_bare .elseTag) ho r
  rw [List.append_assoc, List.append_assoc] at hrest
  rw [List.append_assoc, List.append_assoc, List.append_assoc, List.append_assoc]
  exact (hh _).append ((hb _ rfl).append hrest)

end

mutual

/-- **A command is read as its lexemes.** Literal text is so where a tag opens
or the text ends. -/
theorem Command.lexes : ∀ c : Command, c.Canonical → ∀ r : Text,
    (c.IsTag ∨ r = [] ∨ opensTag r = true) → Lexes .content (c.written ++ r) c.lexemes .content r
  | .multiple commands, ⟨_, hs, ha, hc⟩, r, hr =>
    Command.lexesAll commands ⟨hs, ha, hc⟩ r (hr.resolve_left fun h => by cases h.1)
  | .data text, h, r, hr =>
    Lexes.more (Mode.skips_nil _) (x := text) h (hr.resolve_left fun h => by cases h.2.1)
      (.none _ r)
  | .comment _ text, h, r, _ => lexes_comment h r
  | .output form _ expression, h, r, _ => lexes_head form.keyword (expression.spells h) r
  | .assign _ target expression, ⟨ht, he⟩, r, _ =>
    lexes_head .set (spells_binding ht (expression.spells he)) r
  | .name _ target, h, r, _ => lexes_head .name (target.spells h) r
  | .wrap form _ expression body, ⟨he, hb⟩, r, _ =>
    lexes_block (lexes_head form.keyword (expression.spells he))
      (fun r hr => body.lexes hb r (.inr (.inr hr))) r
  | .bind form _ target expression body, ⟨ht, he, hb⟩, r, _ =>
    lexes_block (lexes_head form.keyword (spells_binding ht (expression.spells he)))
      (fun r hr => body.lexes hb r (.inr (.inr hr))) r
  | .loop _ target bounds body, ⟨ht, hbs, hb⟩, r, _ =>
    lexes_block (lexes_head .loop (spells_binding ht (Bounds.spells hbs)))
      (fun r hr => body.lexes hb r (.inr (.inr hr))) r
  | .define _ called parameters body, ⟨hn, hp, hb⟩, r, _ =>
    lexes_block (lexes_head .defTag (spells_macroHead hn (Variable.spellsAll hp)))
      (fun r hr => body.lexes hb r (.inr (.inr hr))) r
  | .call _ called arguments, ⟨hn, ha⟩, r, _ =>
    lexes_head .call (spells_macroHead hn (Expr.spellsAll arguments ha)) r
  | .ifElse _ condition block otherwise, ⟨hc, hb, ho⟩, r, _ =>
    lexes_branches (lexes_head .ifTag (condition.spells hc))
      (fun r hr => block.lexes hb r (.inr (.inr hr)))
      (fun r hr => otherwise.lexes ho r (.inr (.inr hr))) r
  | .inclusion form _ target, h, r, _ => lexes_inclusion form (target.spells h) r
  | .contentType _ value, h, r, _ => lexes_head .contentType (spells_string h) r
  | .inline _ body, h, r, _ =>
    lexes_block (lexes_bare .inline) (fun r hr => body.lexes h r (.inr (.inr hr))) r
  | .noop, _, r, _ => .none _ r

theorem Command.lexesAll : ∀ cs : List Command, Command.Tidy cs → ∀ r : Text,
    (r = [] ∨ opensTag r = true) →
      Lexes .content (Command.writtenAll cs ++ r) (Command.lexemesAll cs) .content r
  | [], _, r, _ => .none _ r
  | c :: cs, h, r, hr => by
    rw [Command.writtenAll, Command.lexemesAll, List.append_assoc]
    refine (c.lexes h.canonical.1 _ ?_).append (Command.lexesAll cs h.tail r hr)
    have hs : c.isSibling = true := (Bool.and_eq_true _ _ ▸ List.all_cons ▸ h.siblings).1
    cases hd : c.isData with
    | false => exact .inl ⟨hs, hd, h.canonical.1⟩
    | true =>
      cases cs with
      | nil => exact .inr hr
      | cons d cs =>
        have hs' : d.isSibling = true := (Bool.and_eq_true _ _ ▸ List.all_cons ▸ h.tail.siblings).1
        have htag : d.IsTag := ⟨hs', h.isData_eq_false hd, h.canonical.2.1⟩
        rw [Command.writtenAll, List.append_assoc]
        exact .inr (.inr (htag.opensTag _))

end

end ClearSilver
