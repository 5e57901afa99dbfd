/-
# Lists of expressions

Texts that are each parsed alone as an expression can stand between parentheses
and brackets with commas between them. No comma and no bracket makes a word or a
symbol before it longer, so the lexemes of each text are the same there
(`exists_read`), and neither carries an expression on. A text that is parsed as a
variable and begins with a word or a dollar sign is read as a path, since only an
operator or a call would make another expression of it
(`Script.path_passes_of_lookup`), so it can go on with a list of arguments or an
index (`parseExpression_lists`).

Key definitions: `Symbol.isMark`, `Text.BeginsPath`.
Key theorems: `exists_read`, `Script.path_passes_of_lookup`, `exists_readAsPath`,
`parseExpression_lists`.
-/
import ClearSilver.Proofs.Parse.EntryPoints
import ClearSilver.Proofs.Written.ExpressionTaken

namespace ClearSilver

open Script

variable {t t' v w r name : Text} {ls ls' : List Lexeme} {lss : List (List Lexeme)} {e : Expr}
  {x : Variable}

/-! ### Marks -/

/-- The comma, the parentheses and the brackets. -/
def Symbol.isMark : Symbol → Bool
  | .comma | .leftParen | .rightParen | .leftBracket | .rightBracket => true
  | _ => false

theorem Symbol.endsArguments_mark {s : Symbol} (hs : s.isMark = true) (w : Text) :
    Text.EndsArguments (s.text ++ w) := by
  cases s <;> first | cases hs; done | exact ⟨rfl, fun s => by cases s <;> rfl⟩

/-- Nothing makes a mark longer. -/
theorem Symbol.stops_grows_mark {s : Symbol} (hs : s.isMark = true) (w : Text) :
    Text.Stops s.grows w :=
  stops_of_not_grows (fun _ => by cases s <;> first | rfl | cases hs) w

/-! ### Texts before a mark -/

namespace ReadWithin

/-- A mark behind a text, and what stands behind the mark. -/
theorem mark (h : ReadWithin t ls) {s : Symbol} (hs : s.isMark = true)
    (hw : Lexes .arguments w ls' .arguments r) :
    Lexes .arguments (t ++ (s.text ++ w)) (ls ++ Lexeme.symbol s :: ls') .arguments r := by
  obtain ⟨b, hb, hfront⟩ := h (s.text ++ w) (Symbol.endsArguments_mark hs w)
  have hsymbol := lexes_symbol (Symbol.stops_grows_mark hs w) hw
  exact hfront.append (hsymbol.skip ⟨hb, by simp⟩ (by simp))

theorem comma (h : ReadWithin t ls) (h' : ReadWithin t' ls') :
    ReadWithin (t ++ "," ++ t') (ls ++ Lexeme.symbol .comma :: ls') := by
  intro u hu
  obtain ⟨r, hr, hback⟩ := h' u hu
  refine ⟨r, hr, ?_⟩
  rw [List.append_assoc, List.append_assoc]
  exact h.mark (s := .comma) rfl hback

/-- Texts with commas between them. -/
theorem joined : ∀ {ts : List Text} {lss : List (List Lexeme)} {t : Text} {ls : List Lexeme},
    ReadWithin t ls → List.Forall₂ ReadWithin ts lss →
      ReadWithin (Text.joined "," (t :: ts)) (Lexeme.listed (ls :: lss))
  | [], _, _, _, h, .nil => h
  | _ :: _, _ :: _, _, _, h, .cons h' hs => h.comma (joined h' hs)

/-- A closing mark behind a text. -/
theorem closed (h : ReadWithin t ls) {s : Symbol} (hs : s.isMark = true) :
    Lexes .arguments (t ++ s.text) (ls ++ [Lexeme.symbol s]) .arguments [] := by
  have hmark := h.mark hs (.none .arguments [])
  rwa [List.append_nil] at hmark

end ReadWithin

/-! ### Texts that are parsed -/

/-- A text that is parsed alone can be read before a mark, and its lexemes are
read as its tree. -/
theorem exists_read (h : parseExpression t name = .ok e) :
    ∃ ls, ReadWithin t ls ∧ ReadAsExpression ls e := by
  obtain ⟨us, r, hlexes, hr, hm, htakes⟩ := lexes_of_parseExpression h
  exact ⟨us.map Token.lexeme, hlexes.within hr (run_of_matches hm),
    fun _ _ hts hlt => htakes.of_lexemes hm hts.symm hlt⟩

theorem exists_read_each {texts : List Text} {es : List Expr}
    (h : List.Forall₂ (fun t e => parseExpression t name = .ok e) texts es) :
    ∃ lss, List.Forall₂ ReadWithin texts lss ∧ List.Forall₂ ReadAsExpression lss es := by
  induction h with
  | nil => exact ⟨[], .nil, .nil⟩
  | cons h _ ih =>
    obtain ⟨ls, hread, he⟩ := exists_read h
    obtain ⟨lss, hreads, hes⟩ := ih
    exact ⟨ls :: lss, .cons hread hreads, .cons he hes⟩

/-! ### Paths -/

namespace Script

variable {budget : Nat} {tok : Token} {ts us rest : List Token} {index s : Script Expr}

/-- The operators of a level give what they begin with, or an operation. -/
theorem chainFrom_gave {level : BinaryLevel} {operand : Script Expr} :
    ∀ {budget : Nat} {left e : Expr} {ts rest : List Token},
      (chainFrom level operand budget left).feed ts = .gave e rest →
        e = left ∧ ts = rest ∨ ∃ op l r, e = .binary op l r
  | 0, _, _, _, _, h => by cases h
  | _ + 1, _, _, [], _, h => by cases h
  | budget + 1, left, e, tok :: ts, rest, h => by
    replace h := (feed_peek _ tok ts).symm.trans h
    split at h
    next =>
      cases h
      exact .inl ⟨rfl, rfl⟩
    next op _ =>
      obtain ⟨_, _, -, h⟩ := gave_of_bind h
      obtain ⟨right, _, -, h⟩ := gave_of_bind h
      rcases chainFrom_gave h with ⟨rfl, -⟩ | h
      · exact .inr ⟨op, left, right, rfl⟩
      · exact .inr h

/-- An expression that is a variable has no operators. -/
theorem chained_gave_lookup : ∀ {ls : List BinaryLevel} {ts rest : List Token},
    (chained s budget ls).feed ts = .gave (.lookup x) rest → s.feed ts = .gave (.lookup x) rest
  | [], _, _, h => h
  | _ :: _, _, _, h => by
    obtain ⟨first, _, hfirst, h⟩ := gave_of_bind h
    rcases chainFrom_gave h with ⟨rfl, rfl⟩ | ⟨_, _, _, h⟩
    · exact chained_gave_lookup hfirst
    · cases h

/-- A reference that is a variable has no arguments. -/
theorem reference_gave_lookup
    (h : (reference index budget).feed ts = .gave (.lookup x) rest) :
    (path index budget).feed ts = .gave x rest := by
  obtain ⟨called, mid, hpath, h⟩ := gave_of_bind h
  cases mid with
  | nil => cases h
  | cons tok mid =>
    replace h := (feed_accept _ _ _ _).symm.trans h
    split at h
    · obtain ⟨_, _, -, h⟩ := gave_of_bind h
      cases h
    · cases h
      exact hpath

/-- **An expression that is a variable** and begins with a word or a dollar sign
is a path, which can go on. -/
theorem path_passes_of_lookup (htok : tok.kind = .word ∨ tok.kind = .symbol .dollar)
    (h : (expression (budget + 1)).Takes (tok :: us) (.lookup x)
      (Clear (Token.Kind.Extends levels))) (hlen : (tok :: us).length ≤ budget) :
    ∃ b, budget < b + (tok :: us).length ∧
      (path (nested budget) budget).Passes (tok :: us) (pathFrom (nested budget) b x) anyRest := by
  have hpath : (path (nested budget) budget).feed (tok :: us ++ [Token.atEnd 0]) =
      .gave x [Token.atEnd 0] := by
    have hvalue := chained_gave_lookup (h [Token.atEnd 0] (clear_atEnd 0 []))
    exact reference_gave_lookup ((feed_value_reference htok _).symm.trans hvalue)
  have hreads := path_reads (expression_reads budget) budget (tok :: us ++ [Token.atEnd 0])
  change Fed.Obeys _ _ _ ((path (nested budget) budget).feed _) at hreads
  rw [hpath] at hreads
  cases hreads with
  | @gave _ used _ hts hm hP =>
    obtain rfl := List.append_cancel_right hts
    obtain ⟨_, _, y, -, -, hpasses⟩ := path_passes (expression_takes budget) hm hlen
    -- the variable is the one that is given before the end
    have hend : Clear Token.Kind.MorePath [Token.atEnd 0] := .cons (by decide) []
    have hsame := (takes_of_passes hpasses hlen _ hend).symm.trans hpath
    cases hsame
    exact hpasses

end Script

/-- Is the first token of the text, as that of an expression, a word or a dollar
sign? -/
def Text.BeginsPath (t : Text) : Prop :=
  ∃ tok s, (Scanner.start t .arguments).next = (.ok tok, s) ∧
    (tok.kind = .word ∨ tok.kind = .symbol .dollar)

theorem Lexes.beginsPath {m' : Mode} (h : Lexes .arguments t ls m' r) (hne : ls ≠ [])
    (hfirst : Text.BeginsPath t) : BeginsPath ls := by
  obtain ⟨tok, s, hnext, htok⟩ := hfirst
  cases h with
  | none => exact absurd rfl hne
  | more hb hx hr h =>
    rw [Scanner.next_of_stands (s := Scanner.start _ .arguments) rfl hb hx hr] at hnext
    cases hnext
    intro ts hts
    obtain ⟨tok, us, rfl, hk, -, -⟩ := map_lexeme_cons hts
    exact ⟨tok, us, rfl, hk ▸ htok⟩

/-- A text that is parsed as a variable and begins with a word or a dollar sign
is read as a path. -/
theorem exists_readAsPath (h : parseExpression t name = .ok (.lookup x))
    (hfirst : Text.BeginsPath t) :
    ∃ ls, ReadWithin t ls ∧ BeginsPath ls ∧ ReadAsPath ls x := by
  obtain ⟨us, r, hlexes, hr, hm, htakes⟩ := lexes_of_parseExpression h
  have hrun := run_of_matches hm
  have hbegins : BeginsPath (us.map Token.lexeme) :=
    hlexes.beginsPath (fun hnil => by rw [hnil] at hrun; cases hrun) hfirst
  refine ⟨_, hlexes.within hr hrun, hbegins, fun ts budget hts hlen => ?_⟩
  obtain ⟨tok, us', rfl, htok⟩ := hbegins ts hts
  exact path_passes_of_lookup htok (htakes.of_lexemes hm hts.symm (Nat.lt_succ_of_le hlen)) hlen

/-! ### Lists -/

section

variable {texts : List Text} {es : List Expr}

/-- A list in parentheses. -/
theorem parseExpression_grouped
    (h : List.Forall₂ (fun t e => parseExpression t name = .ok e) (t :: texts) es)
    (name' : Text) :
    parseExpression ("(" ++ Text.joined "," (t :: texts) ++ ")") name' = .ok (grouped es) := by
  obtain ⟨_, hreads, hes⟩ := exists_read_each h
  cases hreads with
  | cons hread hreads =>
    have hlist := (hread.joined hreads).closed (s := .rightParen) rfl
    have hlexes := lexes_symbol (Symbol.stops_grows_mark (s := .leftParen) rfl _) hlist
    exact parseExpression_of_lexes hlexes rfl (readAsValue_grouped hes).expression name'

/-- A list in parentheses behind a variable. -/
theorem parseExpression_apply (hv : parseExpression v name = .ok (.lookup x))
    (hfirst : Text.BeginsPath v)
    (h : List.Forall₂ (fun t e => parseExpression t name = .ok e) (t :: texts) es)
    (name' : Text) :
    parseExpression (v ++ "(" ++ Text.joined "," (t :: texts) ++ ")") name' =
      .ok (.apply x es) := by
  obtain ⟨ls, hread, hbegins, hpath⟩ := exists_readAsPath hv hfirst
  obtain ⟨_, hreads, hes⟩ := exists_read_each h
  cases hreads with
  | cons hread' hreads =>
    have hlist := (hread'.joined hreads).closed (s := .rightParen) rfl
    have hlexes := hread.mark (s := .leftParen) rfl hlist
    rw [List.append_assoc, List.append_assoc]
    exact parseExpression_of_lexes hlexes rfl (hpath.apply hbegins hes).expression name'

/-- An expression in brackets behind a variable. -/
theorem parseExpression_index (hv : parseExpression v name = .ok (.lookup x))
    (hfirst : Text.BeginsPath v) (h : parseExpression t name = .ok e) (name' : Text) :
    parseExpression (v ++ "[" ++ t ++ "]") name' = .ok (.lookup (.expand x e)) := by
  obtain ⟨ls, hread, hbegins, hpath⟩ := exists_readAsPath hv hfirst
  obtain ⟨_, hread', he⟩ := exists_read h
  have hindex := hread'.closed (s := .rightBracket) rfl
  have hlexes := hread.mark (s := .leftBracket) rfl hindex
  rw [List.append_assoc, List.append_assoc]
  exact parseExpression_of_lexes hlexes rfl
    ((hpath.index he).lookup (hbegins.append _)).expression name'

end

/-- **Lists of expressions compose.** Expressions with commas between them stand
in parentheses for a sequence, or one alone for itself; behind a variable they are
the arguments of a call, and one in brackets is an index. -/
theorem parseExpression_lists {t : Text} {e : Expr} {texts : List Text} {es : List Expr}
    (h : parseExpression t name = .ok e)
    (hs : List.Forall₂ (fun t e => parseExpression t name = .ok e) texts es) (name' : Text) :
    parseExpression ("(" ++ Text.joined "," (t :: texts) ++ ")") name' =
        .ok (if texts.isEmpty then e else .sequence (e :: es)) ∧
      ∀ v x, parseExpression v name = .ok (.lookup x) → Text.BeginsPath v →
        parseExpression (v ++ "(" ++ Text.joined "," (t :: texts) ++ ")") name' =
            .ok (.apply x (e :: es)) ∧
          parseExpression (v ++ "[" ++ t ++ "]") name' = .ok (.lookup (.expand x e)) := by
  refine ⟨?_, fun v x hv hfirst => ⟨parseExpression_apply hv hfirst (.cons h hs) name',
    parseExpression_index hv hfirst h name'⟩⟩
  have hgrouped := parseExpression_grouped (.cons h hs) name'
  cases hs with
  | nil => exact hgrouped
  | cons _ _ => exact hgrouped

/-- Operators, a comma in a string and lists stand in the items, and the path has
an index already. -/
theorem parseExpression_lists_nested : ∃ e e₂ e₃ x,
    parseExpression "1 + 2 " [] = .ok e ∧ parseExpression "f(',')" [] = .ok e₂ ∧
      parseExpression " (a, b)" [] = .ok e₃ ∧ parseExpression "$x.y[0] " [] = .ok (.lookup x) ∧
    parseExpression "(1 + 2 ,f(','), (a, b))" [] = .ok (.sequence [e, e₂, e₃]) ∧
    parseExpression "$x.y[0] (1 + 2 ,f(','), (a, b))" [] = .ok (.apply x [e, e₂, e₃]) ∧
    parseExpression "$x.y[0] [1 + 2 ]" [] = .ok (.lookup (.expand x e)) := by
  obtain ⟨e, h, -⟩ := exists_ok_of_toOption (f := Expr.kind) (r := parseExpression "1 + 2 " [])
    (b := .binary .add) (by decide +kernel)
  obtain ⟨e₂, h₂, -⟩ := exists_ok_of_toOption (f := Expr.kind) (r := parseExpression "f(',')" [])
    (b := .apply) (by decide +kernel)
  obtain ⟨e₃, h₃, -⟩ := exists_ok_of_toOption (f := Expr.kind) (r := parseExpression " (a, b)" [])
    (b := .sequence) (by decide +kernel)
  obtain ⟨v, hv, hkind⟩ := exists_ok_of_toOption (f := Expr.kind)
    (r := parseExpression "$x.y[0] " []) (b := .lookup) (by decide +kernel)
  obtain ⟨x, rfl⟩ : ∃ x, v = .lookup x := by
    cases v <;> first | exact ⟨_, rfl⟩ | cases hkind
  have hlist : Text.joined "," ("1 + 2 " :: ["f(',')", " (a, b)"]) = "1 + 2 ,f(','), (a, b)" := rfl
  obtain ⟨hgrouped, hbehind⟩ := parseExpression_lists h (.cons h₂ (.cons h₃ .nil)) []
  obtain ⟨hcall, hindex⟩ := hbehind _ x hv ⟨_, _, rfl, .inr rfl⟩
  rw [hlist] at hgrouped hcall
  exact ⟨e, e₂, e₃, x, h, h₂, h₃, hv, hgrouped, hcall, hindex⟩

end ClearSilver
