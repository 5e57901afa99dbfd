/-
# What is written is read back

The reader gives back any value from its text, compact or with an indent, if
it keeps within the limits of the reader: each number in it has few enough
digits to be read (`Json.readable`), and it does not nest too deep. Otherwise
the text is taken for no JSON. The reader leaves what follows the value, so
the items of an array and the members of an object are read one by one, each
up to the comma or the bracket behind it.

Key theorems: `Json.readValue_render`, `Json.ofText?_render`.
-/
import ClearSilver.Proofs.Json.Scalars

namespace ClearSilver
namespace Json

variable {limits : Limits} {indent : Option Nat} {depth budget : Nat} {c : Char}
  {t bs rest : Text} {v : Json}

/-! ### Blanks -/

theorem pastBlanks_append (hbs : ∀ c ∈ bs, isBlank c = true) (t : Text) :
    pastBlanks (bs ++ t) = pastBlanks t := List.dropWhile_append_of_pos hbs

theorem pastBlanks_cons (hc : isBlank c = false) (t : Text) : pastBlanks (c :: t) = c :: t :=
  List.dropWhile_cons_of_neg (by simp [hc])

theorem isBlank_of_mem_lineBreak (h : c ∈ lineBreak indent depth) : isBlank c = true := by
  cases indent with
  | none => cases h
  | some n =>
    obtain rfl | hc := List.mem_cons.mp h
    · rfl
    · rw [List.eq_of_mem_replicate hc]
      rfl

theorem pastBlanks_lineBreak (t : Text) : pastBlanks (lineBreak indent depth ++ t) = pastBlanks t :=
  pastBlanks_append (fun _ => isBlank_of_mem_lineBreak) t

theorem endsNumber_cons (hc : continuesNumber c = false) : EndsNumber (c :: t) := by
  intro d hd
  obtain rfl : c = d := by simpa using hd
  exact hc

theorem endsNumber_lineBreak (hc : continuesNumber c = false) :
    EndsNumber (lineBreak indent depth ++ c :: t) := by
  cases indent with
  | none => exact endsNumber_cons hc
  | some n => exact endsNumber_cons rfl

/-- Blanks before a value do not matter. -/
theorem readValue_lineBreak (budget : Nat) (t : Text) :
    readValue limits budget (lineBreak indent depth ++ t) = readValue limits budget t := by
  cases budget with
  | zero => rfl
  | succ budget => rw [readValue, readValue, pastBlanks_lineBreak]

theorem readValue_space (budget : Nat) (t : Text) :
    readValue limits budget (' ' :: t) = readValue limits budget t := by
  cases budget with
  | zero => rfl
  | succ budget => rw [readValue, readValue]; rfl

/-! ### Texts of arrays and objects -/

theorem render_array_append (vs : List Json) (rest : Text) :
    render indent depth (array (v :: vs)) ++ rest =
      '[' :: (lineBreak indent (depth + 1) ++ (render indent (depth + 1) v ++
        (renderItems indent (depth + 1) vs ++ (lineBreak indent depth ++ ']' :: rest)))) := by
  simp [render]

theorem renderItems_cons_append (vs : List Json) (rest : Text) :
    renderItems indent depth (v :: vs) ++ rest =
      ',' :: (lineBreak indent depth ++ (render indent depth v ++
        (renderItems indent depth vs ++ rest))) := by
  simp [renderItems]

theorem render_object_append (k : Text) (ms : List (Text × Json)) (rest : Text) :
    render indent depth (object ((k, v) :: ms)) ++ rest =
      '\x7b' :: (lineBreak indent (depth + 1) ++ (k.jsonQuoted false ++ (keyMark indent ++
        (render indent (depth + 1) v ++ (renderMembers indent (depth + 1) ms ++
          (lineBreak indent depth ++ '\x7d' :: rest)))))) := by
  simp [render]

theorem renderMembers_cons_append (k : Text) (ms : List (Text × Json)) (rest : Text) :
    renderMembers indent depth ((k, v) :: ms) ++ rest =
      ',' :: (lineBreak indent depth ++ (k.jsonQuoted false ++ (keyMark indent ++
        (render indent depth v ++ (renderMembers indent depth ms ++ rest))))) := by
  simp [renderMembers]

/-! ### What a value begins with -/

/-- Can a number begin with this character, or a word for one? -/
def beginsNumber (c : Char) : Bool := isDigit c || c = '-' || c = 'N' || c = 'I'

/-- Can the text of a value begin with this character? -/
def beginsValue (c : Char) : Bool := !isBlank c && c ≠ ']'

theorem exists_signedDecimal_eq_cons (n : Int) :
    ∃ c t, signedDecimal n = c :: t ∧ beginsNumber c = true := by
  cases n with
  | ofNat k =>
    obtain ⟨d, ds, hcons, hd, -⟩ := exists_decimal_eq_cons k
    exact ⟨d, ds, hcons, by simp [beginsNumber, hd]⟩
  | negSucc k => exact ⟨'-', _, rfl, rfl⟩

theorem exists_nonFinite_eq_cons (n : NonFinite) :
    ∃ c t, n.text = c :: t ∧ beginsNumber c = true := by
  cases n <;> exact ⟨_, _, rfl, rfl⟩

theorem beginsValue_of_beginsNumber (hc : beginsNumber c = true) : beginsValue c = true := by
  by_contra hv
  have hcases : isBlank c = true ∨ c = ']' := by simpa [beginsValue, or_iff_not_imp_left] using hv
  simp only [isBlank, Bool.or_eq_true, decide_eq_true_eq] at hcases
  rcases hcases with ((((rfl | rfl) | rfl) | rfl) | rfl) <;> exact absurd hc (by decide)

theorem exists_render_eq_cons (indent : Option Nat) (depth : Nat) (v : Json) :
    ∃ c t, render indent depth v = c :: t ∧ beginsValue c = true := by
  cases v with
  | null => exact ⟨_, _, rfl, rfl⟩
  | bool b => cases b <;> exact ⟨_, _, rfl, rfl⟩
  | integer n =>
    obtain ⟨c, t, h, hc⟩ := exists_signedDecimal_eq_cons n
    exact ⟨c, t, h, beginsValue_of_beginsNumber hc⟩
  | decimal mantissa exponent =>
    obtain ⟨c, t, h, hc⟩ := exists_signedDecimal_eq_cons mantissa
    exact ⟨c, _, by rw [render, h]; rfl, beginsValue_of_beginsNumber hc⟩
  | nonFinite n =>
    obtain ⟨c, t, h, hc⟩ := exists_nonFinite_eq_cons n
    exact ⟨c, t, h, beginsValue_of_beginsNumber hc⟩
  | string t => exact ⟨_, _, rfl, rfl⟩
  | array items => cases items <;> exact ⟨_, _, rfl, rfl⟩
  | object members => cases members <;> exact ⟨_, _, rfl, rfl⟩

/-- The first character of a value stands behind the blanks before it. -/
theorem pastBlanks_render (indent : Option Nat) (depth : Nat) (v : Json) (rest : Text) :
    ∃ c t, pastBlanks (render indent depth v ++ rest) = c :: t ∧ c ≠ ']' := by
  obtain ⟨c, t, hcons, hc⟩ := exists_render_eq_cons indent depth v
  simp only [beginsValue, Bool.and_eq_true, Bool.not_eq_true', decide_eq_true_eq] at hc
  exact ⟨c, t ++ rest, by rw [hcons, List.cons_append, pastBlanks_cons hc.1], hc.2⟩

/-! ### One step of the reader -/

theorem readValue_number (hc : beginsNumber c = true) (budget : Nat) (t : Text) :
    readValue limits (budget + 1) (c :: t) = readNumber limits (c :: t) := by
  have hbegins := beginsValue_of_beginsNumber hc
  simp only [beginsValue, Bool.and_eq_true, Bool.not_eq_true'] at hbegins
  rw [readValue, pastBlanks_cons hbegins.1]
  split
  case h_7 => rfl
  all_goals
    rename_i heq
    cases heq
    exact absurd hc (by decide)

theorem readValue_string (budget : Nat) (t : Text) :
    readValue limits (budget + 1) (t.jsonQuoted false ++ rest) = some (string t, rest) := by
  have hquoted : t.jsonQuoted false ++ rest =
      '"' :: (t.flatMap (Text.jsonEscaped false) ++ '"' :: rest) := by simp [Text.jsonQuoted]
  rw [hquoted, readValue, pastBlanks_cons rfl]
  simp only [readString_jsonQuoted, Option.map_some]

theorem readValue_array (hv : pastBlanks t = c :: rest) (hc : c ≠ ']') :
    readValue limits (budget + 1) ('[' :: t) = do
      let (v, r) ← readValue limits budget t
      let (vs, r') ← readItems (readValue limits budget) budget r
      return (array (v :: vs), r') := by
  rw [readValue, pastBlanks_cons rfl]
  simp only [hv]
  split
  · rename_i heq
    cases heq
    exact absurd rfl hc
  · rfl

theorem readValue_object (hk : pastBlanks t = '"' :: rest) :
    readValue limits (budget + 1) ('\x7b' :: t) = do
      let (m, r) ← readMember (readValue limits budget) t
      let (ms, r') ← readMembers (readValue limits budget) budget r
      return (object (m :: ms), r') := by
  rw [readValue, pastBlanks_cons rfl]
  simp only [hk]
  rfl

/-- Reading the items after the first where a comma follows. -/
theorem readItems_cons (read : Text → Option (Json × Text)) (budget : Nat) (t : Text) :
    readItems read (budget + 1) (',' :: t) = do
      let (v, r) ← read t
      let (vs, r') ← readItems read budget r
      return (v :: vs, r') := rfl

/-- Reading the members after the first where a comma follows. -/
theorem readMembers_cons (read : Text → Option (Json × Text)) (budget : Nat) (t : Text) :
    readMembers read (budget + 1) (',' :: t) = do
      let (m, r) ← readMember read t
      let (ms, r') ← readMembers read budget r
      return (m :: ms, r') := rfl

/-- A key is read up to the value behind it. -/
theorem readMember_jsonQuoted (size : Nat) (k : Text) :
    readMember (readValue limits size)
        (lineBreak indent depth ++ (k.jsonQuoted false ++ (keyMark indent ++ t))) =
      (readValue limits size t).map fun (v, r) => ((k, v), r) := by
  have hquoted : ∀ r, k.jsonQuoted false ++ r =
      '"' :: (k.flatMap (Text.jsonEscaped false) ++ '"' :: r) := by simp [Text.jsonQuoted]
  obtain ⟨r, hmark, hread⟩ : ∃ r, keyMark indent ++ t = ':' :: r ∧
      readValue limits size r = readValue limits size t := by
    cases indent with
    | none => exact ⟨t, rfl, rfl⟩
    | some n => exact ⟨' ' :: t, rfl, readValue_space size t⟩
  have hcolon : pastBlanks (':' :: r) = ':' :: r := pastBlanks_cons rfl r
  rw [readMember, pastBlanks_lineBreak, hquoted, pastBlanks_cons rfl, hmark, Option.map_eq_bind]
  simp only [readString_jsonQuoted, Option.bind_eq_bind, Option.bind_some, hcolon, hread]
  rfl

/-- A member is read if its value is. -/
theorem readMember_render {size : Nat} {a : Bool} (k : Text)
    (hv : readValue limits size t = if a then some (v, rest) else none) :
    readMember (readValue limits size)
        (lineBreak indent depth ++ (k.jsonQuoted false ++ (keyMark indent ++ t))) =
      if a then some ((k, v), rest) else none := by
  rw [readMember_jsonQuoted, hv]
  cases a <;> rfl

/-- Two parts in a row are read if each can be. -/
theorem read_both {α β γ : Type} {a b : Bool} {x : α} {y : β} {r r' : Text}
    {first : Option (α × Text)} {second : Text → Option (β × Text)} (f : α → β → γ)
    (hfirst : first = if a then some (x, r) else none)
    (hsecond : second r = if b then some (y, r') else none) :
    (do
      let (x, r) ← first
      let (y, r') ← second r
      return (f x y, r')) = if a && b then some (f x y, r') else none := by
  rw [hfirst]
  cases a with
  | false => rfl
  | true =>
    simp only [if_true, Option.bind_eq_bind, Option.bind_some, hsecond, Bool.true_and]
    cases b <;> rfl

/-! ### Values -/

theorem readValue_integer (limits : Limits) (n : Int) (hrest : EndsNumber rest) :
    readValue limits (budget + 1) (signedDecimal n ++ rest) =
      if fits limits n then some (integer n, rest) else none := by
  obtain ⟨c, t, hcons, hc⟩ := exists_signedDecimal_eq_cons n
  have hnumber := readNumber_integer limits n hrest
  rw [hcons, List.cons_append] at hnumber ⊢
  rw [readValue_number hc, hnumber]

theorem readValue_decimal (limits : Limits) (mantissa exponent : Int) (hrest : EndsNumber rest) :
    readValue limits (budget + 1)
        (signedDecimal mantissa ++ 'e' :: (signedDecimal exponent ++ rest)) =
      if fits limits mantissa then some (decimal mantissa exponent, rest) else none := by
  obtain ⟨c, t, hcons, hc⟩ := exists_signedDecimal_eq_cons mantissa
  have hnumber := readNumber_decimal limits mantissa exponent hrest
  rw [hcons, List.cons_append] at hnumber ⊢
  rw [readValue_number hc, hnumber]

theorem readValue_nonFinite (n : NonFinite) (rest : Text) :
    readValue limits (budget + 1) (n.text ++ rest) = some (nonFinite n, rest) := by
  obtain ⟨c, t, hcons, hc⟩ := exists_nonFinite_eq_cons n
  have hnumber := readNumber_nonFinite limits n rest
  rw [hcons, List.cons_append] at hnumber ⊢
  rw [readValue_number hc, hnumber]

theorem endsNumber_items (vs : List Json) (depth' : Nat) :
    EndsNumber (renderItems indent depth vs ++ (lineBreak indent depth' ++ ']' :: rest)) := by
  cases vs with
  | nil => exact endsNumber_lineBreak rfl
  | cons v vs =>
    rw [renderItems_cons_append]
    exact endsNumber_cons rfl

theorem endsNumber_members (ms : List (Text × Json)) (depth' : Nat) :
    EndsNumber (renderMembers indent depth ms ++ (lineBreak indent depth' ++ '\x7d' :: rest)) := by
  cases ms with
  | nil => exact endsNumber_lineBreak rfl
  | cons m ms =>
    rw [renderMembers_cons_append]
    exact endsNumber_cons rfl

-- The length of the text of a value is a budget that lasts, since each value
-- in it is shorter by the bracket before it or the comma.
mutual

/-- **A value is read back from its text**, and what follows is left. -/
theorem readValue_render (limits : Limits) (indent : Option Nat) :
    ∀ (v : Json) (depth budget : Nat) (rest : Text),
    (render indent depth v).length ≤ budget → EndsNumber rest →
    readValue limits budget (render indent depth v ++ rest) =
      if readable limits v then some (v, rest) else none
  | v, depth, 0, _, h, _ => by
    obtain ⟨c, t, hcons, -⟩ := exists_render_eq_cons indent depth v
    rw [hcons, List.length_cons] at h
    omega
  | null, _, budget + 1, rest, _, _ => by
    rw [readable, if_pos rfl]
    exact readWord_append "null" null
  | bool true, _, budget + 1, rest, _, _ => by
    rw [readable, if_pos rfl]
    exact readWord_append "true" (bool true)
  | bool false, _, budget + 1, rest, _, _ => by
    rw [readable, if_pos rfl]
    exact readWord_append "false" (bool false)
  | integer n, _, budget + 1, rest, _, hrest => by
    rw [render, readValue_integer limits n hrest, readable]
  | decimal mantissa exponent, _, budget + 1, rest, _, hrest => by
    rw [render, List.append_assoc, List.append_assoc, readable]
    exact readValue_decimal limits mantissa exponent hrest
  | nonFinite n, _, budget + 1, rest, _, _ => by
    rw [render, readValue_nonFinite, readable, if_pos rfl]
  | string t, _, budget + 1, rest, _, _ => by
    rw [render, readValue_string, readable, if_pos rfl]
  | array [], _, budget + 1, rest, _, _ => by
    rw [readable, readableItems, if_pos rfl]
    rfl
  | array (v :: vs), depth, budget + 1, rest, h, _ => by
    rw [← List.append_nil (render indent depth _), render_array_append] at h
    simp only [List.length_cons, List.length_append] at h
    have hv := readValue_render limits indent v (depth + 1) budget
      (renderItems indent (depth + 1) vs ++ (lineBreak indent depth ++ ']' :: rest)) (by omega)
      (endsNumber_items vs depth)
    have hvs := readItems_render limits indent vs (depth + 1) depth budget budget rest (by omega)
      (by omega)
    obtain ⟨c, t, hpast, hc⟩ := pastBlanks_render indent (depth + 1) v
      (renderItems indent (depth + 1) vs ++ (lineBreak indent depth ++ ']' :: rest))
    rw [render_array_append, readValue_array (by rw [pastBlanks_lineBreak, hpast]) hc,
      readValue_lineBreak]
    exact read_both (fun v vs => array (v :: vs)) hv hvs
  | object [], _, budget + 1, rest, _, _ => by
    rw [readable, readableMembers, if_pos rfl]
    rfl
  | object ((k, v) :: ms), depth, budget + 1, rest, h, _ => by
    rw [← List.append_nil (render indent depth _), render_object_append] at h
    simp only [List.length_cons, List.length_append] at h
    have hv := readValue_render limits indent v (depth + 1) budget
      (renderMembers indent (depth + 1) ms ++ (lineBreak indent depth ++ '\x7d' :: rest)) (by omega)
      (endsNumber_members ms depth)
    have hms := readMembers_render limits indent ms (depth + 1) depth budget budget rest (by omega)
      (by omega)
    rw [render_object_append, readValue_object (by rw [pastBlanks_lineBreak]; rfl)]
    exact read_both (fun m ms => object (m :: ms)) (readMember_render k hv) hms

theorem readItems_render (limits : Limits) (indent : Option Nat) : ∀ (vs : List Json)
    (depth depth' size budget : Nat) (rest : Text), (renderItems indent depth vs).length ≤ size →
    (renderItems indent depth vs).length < budget →
    readItems (readValue limits size) budget
        (renderItems indent depth vs ++ (lineBreak indent depth' ++ ']' :: rest)) =
      if readableItems limits vs then some (vs, rest) else none
  | _, _, _, _, 0, _, _, h => absurd h (Nat.not_lt_zero _)
  | [], depth, depth', size, budget + 1, rest, _, _ => by
    rw [renderItems, List.nil_append, readItems, pastBlanks_lineBreak, pastBlanks_cons rfl]
    rfl
  | v :: vs, depth, depth', size, budget + 1, rest, hsize, hbudget => by
    rw [← List.append_nil (renderItems indent depth _), renderItems_cons_append] at hsize hbudget
    simp only [List.length_cons, List.length_append] at hsize hbudget
    have hv := readValue_render limits indent v depth size
      (renderItems indent depth vs ++ (lineBreak indent depth' ++ ']' :: rest)) (by omega)
      (endsNumber_items vs depth')
    have hvs := readItems_render limits indent vs depth depth' size budget rest (by omega)
      (by omega)
    rw [renderItems_cons_append, readItems_cons, readValue_lineBreak]
    exact read_both List.cons hv hvs

theorem readMembers_render (limits : Limits) (indent : Option Nat) : ∀ (ms : List (Text × Json))
    (depth depth' size budget : Nat) (rest : Text), (renderMembers indent depth ms).length ≤ size →
    (renderMembers indent depth ms).length < budget →
    readMembers (readValue limits size) budget
        (renderMembers indent depth ms ++ (lineBreak indent depth' ++ '\x7d' :: rest)) =
      if readableMembers limits ms then some (ms, rest) else none
  | _, _, _, _, 0, _, _, h => absurd h (Nat.not_lt_zero _)
  | [], depth, depth', size, budget + 1, rest, _, _ => by
    rw [renderMembers, List.nil_append, readMembers, pastBlanks_lineBreak, pastBlanks_cons rfl]
    rfl
  | (k, v) :: ms, depth, depth', size, budget + 1, rest, hsize, hbudget => by
    rw [← List.append_nil (renderMembers indent depth _), renderMembers_cons_append]
      at hsize hbudget
    simp only [List.length_cons, List.length_append] at hsize hbudget
    have hv := readValue_render limits indent v depth size
      (renderMembers indent depth ms ++ (lineBreak indent depth' ++ '\x7d' :: rest)) (by omega)
      (endsNumber_members ms depth')
    have hms := readMembers_render limits indent ms depth depth' size budget rest (by omega)
      (by omega)
    rw [renderMembers_cons_append, readMembers_cons]
    exact read_both List.cons (readMember_render k hv) hms

end

/-- **The text of a value is JSON for it** if the value keeps within the limits,
and no JSON otherwise. -/
theorem ofText?_render (limits : Limits) (indent : Option Nat) (v : Json) :
    ofText? limits (render indent 0 v) = if within limits v then some v else none := by
  have hread := readValue_render limits indent v 0 ((render indent 0 v).length + 1) [] (by omega)
    (fun _ h => by cases h)
  rw [List.append_nil] at hread
  rw [ofText?, hread, within]
  cases readable limits v <;> rfl

end Json
end ClearSilver
