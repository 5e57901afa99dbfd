/-
# Outlines

A compact rendering is nested in a simple way, whatever the node: a quoted
text, a list in brackets, or a bare word with fields in parentheses if it has
any. Such an outline is known from its text and so is what follows, if the bare
words are made of characters of words and dots and what follows goes on with
none of these and no parenthesis (`Outline.text_append_inj`).

Key definitions: `Outline`, `Outline.text`, `Outline.Legible`, `Outline.Bounded`.
Key theorems: `dumpedText_append_inj`, `Outline.text_append_inj`.
-/
import ClearSilver.Proofs.Json.Scalars
import ClearSilver.Proofs.Scan.Run
import ClearSilver.Tree.Dump

namespace ClearSilver

namespace Text

theorem joined_cons (separator t : Text) : ∀ ts : List Text,
    joined separator (t :: ts) = t ++ ts.flatMap (separator ++ ·)
  | [] => by simp [joined]
  | u :: ts => by
    rw [joined, joined_cons separator u ts, List.flatMap_cons]
    simp only [List.append_assoc]

/-- A run of characters is known, and what follows it. -/
theorem run_append_inj {p : Char → Bool} {w w' r r' : Text} (hw : w.all p = true)
    (hw' : w'.all p = true) (hr : r.Stops p) (hr' : r'.Stops p) (h : w ++ r = w' ++ r') :
    w = w' ∧ r = r' := by
  have htake := congrArg (List.takeWhile p) h
  rw [takeWhile_run hw hr, takeWhile_run hw' hr'] at htake
  subst htake
  exact ⟨rfl, List.append_cancel_left h⟩

end Text

/-- The shape of a compact rendering. -/
inductive Outline
  | quoted (t : Text)
  | list (items : List Outline)
  /-- A bare word with fields behind it, if it has any. -/
  | node (word : Text) (fields : List Outline)

/-- A character of a tag, a word, a number or a dotted name. -/
def isBareChar (c : Char) : Bool := isWordChar c || c = '.'

namespace Outline

mutual

def text : Outline → Text
  | quoted t => dumpedText t
  | list items => dumpedList (textAll items)
  | node word fields => dumped word (textAll fields)

def textAll : List Outline → List Text
  | [] => []
  | o :: os => o.text :: textAll os

end

mutual

/-- Are the bare words not empty and made of their characters? -/
def Legible : Outline → Prop
  | quoted _ => True
  | list items => LegibleAll items
  | node word fields => word ≠ [] ∧ word.all isBareChar = true ∧ LegibleAll fields

def LegibleAll : List Outline → Prop
  | [] => True
  | o :: os => o.Legible ∧ LegibleAll os

end

/-! ### What follows -/

/-- Does the text go on with no bare word and no fields? -/
def Bounded (r : Text) : Prop := r.Stops fun c => isBareChar c || c = '('

theorem Bounded.stops {r : Text} (h : Bounded r) : r.Stops isBareChar := by
  cases r with
  | nil => trivial
  | cons c r => exact (Bool.or_eq_false_iff.mp h).1

theorem Bounded.ne_open {r : Text} (h : Bounded r) (r' : Text) : r ≠ '(' :: r' := by
  rintro rfl
  have hopen : (isBareChar '(' || decide ('(' = '(')) = false := h
  exact absurd hopen (by decide)

/-- The mark behind the last item of a list, or behind the last field. -/
def Closes (c : Char) : Prop := c = ')' ∨ c = ']'

theorem Closes.bounded {c : Char} (h : Closes c) (r : Text) : Bounded (c :: r) := by
  rcases h with rfl | rfl <;> (show _ = false; decide)

/-- The texts of some items with commas between them. -/
def listed (os : List Outline) : Text := Text.joined ", " (textAll os)

/-- The texts of the items behind another one, each after a comma. -/
def following (os : List Outline) : Text := (textAll os).flatMap (", ".toList ++ ·)

theorem listed_cons (o : Outline) (os : List Outline) (r : Text) :
    listed (o :: os) ++ r = o.text ++ (following os ++ r) := by
  rw [listed, textAll, Text.joined_cons, ← following, List.append_assoc]

theorem following_cons (o : Outline) (os : List Outline) (r : Text) :
    following (o :: os) ++ r = ',' :: ' ' :: (o.text ++ (following os ++ r)) := by
  simp [following, textAll]

theorem bounded_following {c : Char} (hc : Closes c) (os : List Outline) (r : Text) :
    Bounded (following os ++ c :: r) := by
  cases os with
  | nil => exact hc.bounded r
  | cons o os =>
    rw [following_cons]
    show _ = false
    decide

theorem list_text (items : List Outline) (r : Text) :
    (list items).text ++ r = '[' :: (listed items ++ ']' :: r) := by
  simp [text, dumpedList, listed]

/-- What stands behind the word of a node. -/
def behindWord (fields : List Outline) (r : Text) : Text :=
  if fields.isEmpty then r else '(' :: (listed fields ++ ')' :: r)

theorem node_text (word : Text) (fields : List Outline) (r : Text) :
    (node word fields).text ++ r = word ++ behindWord fields r := by
  cases fields with
  | nil => rfl
  | cons f fs => simp [text, textAll, dumped, behindWord, listed]

theorem stops_behindWord (fields : List Outline) {r : Text} (hr : Bounded r) :
    (behindWord fields r).Stops isBareChar := by
  cases fields with
  | nil => exact hr.stops
  | cons f fs =>
    show isBareChar '(' = false
    decide

/-! ### How a text begins -/

/-- Can the text of the outline begin with this character? -/
def BeginsWith : Outline → Char → Prop
  | quoted _, c => c = '"'
  | list _, c => c = '['
  | node _ _, c => isBareChar c = true

theorem exists_text_eq_cons : ∀ {o : Outline}, o.Legible → ∀ r,
    ∃ c t, o.text ++ r = c :: t ∧ o.BeginsWith c
  | quoted _, _, _ => ⟨_, _, rfl, rfl⟩
  | list items, _, r => ⟨_, _, list_text items r, rfl⟩
  | node (c :: w) fields, h, r =>
    ⟨c, _, node_text (c :: w) fields r, List.all_eq_true.mp h.2.1 c List.mem_cons_self⟩

theorem BeginsWith.not_closes {o : Outline} {c : Char} (h : o.BeginsWith c) : ¬ Closes c := by
  rintro (rfl | rfl) <;> cases o <;> revert h <;> simp only [BeginsWith] <;> decide

/-- Are the outlines of one sort? -/
def SameSort : Outline → Outline → Prop
  | quoted _, quoted _ | list _, list _ | node _ _, node _ _ => True
  | _, _ => False

/-- The first character tells the sort. -/
theorem sameSort_of_beginsWith {c : Char} : ∀ {o o' : Outline}, o.BeginsWith c →
    o'.BeginsWith c → o.SameSort o'
  | quoted _, quoted _, _, _ | list _, list _, _, _ | node _ _, node _ _, _, _ => trivial
  | quoted _, list _, rfl, h | list _, quoted _, rfl, h | quoted _, node _ _, rfl, h
  | list _, node _ _, rfl, h | node _ _, quoted _, h, rfl | node _ _, list _, h, rfl =>
    absurd h (by simp only [BeginsWith]; decide)

/-! ### What a text stands for -/

/-- A quoted text is known, and what follows it. -/
theorem dumpedText_append_inj {t t' r r' : Text} (h : dumpedText t ++ r = dumpedText t' ++ r') :
    t = t' ∧ r = r' := by
  have hcut : ∀ (t r : Text), dumpedText t ++ r =
      '"' :: (t.flatMap (Text.jsonEscaped true) ++ '"' :: r) := by
    intro t r
    simp [dumpedText, Text.jsonQuoted]
  rw [hcut, hcut] at h
  have hread := congrArg (fun x => Json.readString (x.length + 1) x) (List.cons.inj h).2
  simp only [Json.readString_jsonQuoted] at hread
  exact Prod.mk.inj (Option.some.inj hread)

mutual

/-- **An outline is known from its text**, and so is what follows. -/
theorem text_append_inj : ∀ {o o' : Outline} {r r' : Text}, o.Legible → o'.Legible → Bounded r →
    Bounded r' → o.text ++ r = o'.text ++ r' → o = o' ∧ r = r'
  | o, o', r, r', ho, ho', hr, hr', h => by
    obtain ⟨c, t, htext, hc⟩ := exists_text_eq_cons ho r
    obtain ⟨c', t', htext', hc'⟩ := exists_text_eq_cons ho' r'
    -- the texts begin with one character, which tells the sort of both
    obtain ⟨rfl, -⟩ := List.cons.inj (htext.symm.trans (h.trans htext'))
    have hsort := sameSort_of_beginsWith hc hc'
    match o, o' with
    | quoted t, quoted t' =>
      obtain ⟨rfl, rfl⟩ := dumpedText_append_inj h
      exact ⟨rfl, rfl⟩
    | list items, list items' =>
      rw [list_text, list_text] at h
      obtain ⟨rfl, rfl⟩ := listed_append_inj (.inr rfl) ho ho' (List.cons.inj h).2
      exact ⟨rfl, rfl⟩
    | node w fields, node w' fields' =>
      rw [node_text, node_text] at h
      obtain ⟨rfl, hbehind⟩ := Text.run_append_inj ho.2.1 ho'.2.1
        (stops_behindWord fields hr) (stops_behindWord fields' hr') h
      match fields, fields' with
      | [], [] => exact ⟨rfl, hbehind⟩
      | [], f :: fs => exact absurd hbehind (hr.ne_open _)
      | f :: fs, [] => exact absurd hbehind.symm (hr'.ne_open _)
      | f :: fs, f' :: fs' =>
        have hlisted := (List.cons.inj hbehind).2
        obtain ⟨hfields, rfl⟩ := listed_append_inj (.inl rfl) ho.2.2 ho'.2.2 hlisted
        rw [hfields]
        exact ⟨rfl, rfl⟩

theorem listed_append_inj {c : Char} (hc : Closes c) : ∀ {os os' : List Outline} {r r' : Text},
    LegibleAll os → LegibleAll os' → listed os ++ c :: r = listed os' ++ c :: r' →
      os = os' ∧ r = r'
  | [], [], r, r', _, _, h => ⟨rfl, (List.cons.inj h).2⟩
  | [], o :: os, r, r', _, ho, h => by
    rw [listed_cons] at h
    obtain ⟨d, t, htext, hd⟩ := exists_text_eq_cons ho.1 (following os ++ c :: r')
    rw [htext] at h
    obtain ⟨rfl, -⟩ := List.cons.inj h
    exact absurd hc hd.not_closes
  | o :: os, [], r, r', ho, _, h => by
    rw [listed_cons] at h
    obtain ⟨d, t, htext, hd⟩ := exists_text_eq_cons ho.1 (following os ++ c :: r)
    rw [htext] at h
    obtain ⟨rfl, -⟩ := List.cons.inj h
    exact absurd hc hd.not_closes
  | o :: os, o' :: os', r, r', ho, ho', h => by
    rw [listed_cons, listed_cons] at h
    obtain ⟨rfl, hmore⟩ := text_append_inj ho.1 ho'.1 (bounded_following hc os r)
      (bounded_following hc os' r') h
    obtain ⟨rfl, rfl⟩ := following_append_inj hc ho.2 ho'.2 hmore
    exact ⟨rfl, rfl⟩

theorem following_append_inj {c : Char} (hc : Closes c) : ∀ {os os' : List Outline} {r r' : Text},
    LegibleAll os → LegibleAll os' → following os ++ c :: r = following os' ++ c :: r' →
      os = os' ∧ r = r'
  | [], [], r, r', _, _, h => ⟨rfl, (List.cons.inj h).2⟩
  | [], o :: os, r, r', _, _, h => by
    rw [following_cons] at h
    obtain ⟨rfl, -⟩ := List.cons.inj h
    exact absurd hc (by simp [Closes])
  | o :: os, [], r, r', _, _, h => by
    rw [following_cons] at h
    obtain ⟨rfl, -⟩ := List.cons.inj h
    exact absurd hc (by simp [Closes])
  | o :: os, o' :: os', r, r', ho, ho', h => by
    rw [following_cons, following_cons] at h
    have htail := (List.cons.inj (List.cons.inj h).2).2
    obtain ⟨rfl, hmore⟩ := text_append_inj ho.1 ho'.1 (bounded_following hc os r)
      (bounded_following hc os' r') htail
    obtain ⟨rfl, rfl⟩ := following_append_inj hc ho.2 ho'.2 hmore
    exact ⟨rfl, rfl⟩

end

end Outline
end ClearSilver
