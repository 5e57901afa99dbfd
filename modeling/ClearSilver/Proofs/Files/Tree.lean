/-
# Walks and look-ups in a file tree

In a file tree a directory lists each of its names once, and a name is a
component of paths: it is not empty, not `.` or `..`, and holds no slash and no
NUL (`Entry.isTree`). Entries that are put at places with such names make up a
file tree (`FileSystem.isTree_ofEntries`).

There a walk over the entries and a look-up by names come to the same: the
directories from an entry down are those that names lead to
(`Entry.mem_directories`), and what a path leads to some names further down is
what these names lead to from its own entry (`FileSystem.toOption_look_below`).

Key definitions: `Text.isFileName`, `Entry.isTree`, `FileSystem.isTree`.
Key theorems: `Entry.named?_eq_some`, `Entry.mem_directories`,
`FileSystem.isTree_ofEntries`, `FileSystem.toOption_look_below`.
-/
import Mathlib.Data.List.Nodup
import ClearSilver.Files.Tree

namespace ClearSilver

/-- Can an entry have this name? -/
def Text.isFileName (t : Text) : Bool :=
  !t.isEmpty && t ≠ (".".toList : Text) && t ≠ ("..".toList : Text) && !t.contains '/' &&
    !t.contains '\x00'

theorem Text.ne_above_of_isFileName {t : Text} (h : t.isFileName) : t ≠ ("..".toList : Text) := by
  rintro rfl
  cases h

theorem Text.not_contains_nul_of_isFileName {t : Text} (h : t.isFileName) :
    t.contains '\x00' = false := by
  simpa using (Bool.and_eq_true_iff.mp h).2

namespace Entry

variable {e child : Entry} {es : List (Text × Entry)} {name : Text} {names more : List Text}

mutual

/-- Does every directory from here down list names of entries, each once? -/
def isTree : Entry → Bool
  | file _ => true
  | dir es => decide (es.map Prod.fst).Nodup && areTrees es

def areTrees : List (Text × Entry) → Bool
  | [] => true
  | (name, e) :: es => name.isFileName && e.isTree && areTrees es

end

theorem areTrees_iff : ∀ {es : List (Text × Entry)},
    areTrees es ↔ ∀ m ∈ es, m.1.isFileName ∧ m.2.isTree
  | [] => by simp [areTrees]
  | (name, e) :: es => by
    rw [areTrees, Bool.and_eq_true, Bool.and_eq_true, areTrees_iff, List.forall_mem_cons]

theorem isTree_dir : (dir es).isTree ↔
    (es.map Prod.fst).Nodup ∧ ∀ m ∈ es, m.1.isFileName ∧ m.2.isTree := by
  rw [isTree, Bool.and_eq_true, decide_eq_true_iff, areTrees_iff]

/-! ### Names -/

theorem mem_of_named? : ∀ {es : List (Text × Entry)}, named? name es = some e → (name, e) ∈ es
  | (n, e') :: es, h => by
    rw [named?] at h
    split at h
    · rename_i hn
      obtain rfl := Option.some.inj h
      exact hn ▸ List.mem_cons_self
    · exact List.mem_cons_of_mem _ (mem_of_named? h)

/-- An entry that is listed under a name of its own is found by it. -/
theorem named?_eq_some : ∀ {es : List (Text × Entry)}, (es.map Prod.fst).Nodup →
    (named? name es = some e ↔ (name, e) ∈ es)
  | [], _ => by simp [named?]
  | (n, e') :: es, h => by
    rw [List.map_cons, List.nodup_cons] at h
    by_cases hn : n = name
    · subst hn
      have hfresh : (n, e) ∉ es := fun hmem => h.1 (List.mem_map.mpr ⟨(n, e), hmem, rfl⟩)
      simp [named?, hfresh, eq_comm]
    · simp [named?, hn, Ne.symm hn, named?_eq_some h.2]

theorem isSome_named? : (named? name es).isSome ↔ name ∈ es.map Prod.fst := by
  induction es with
  | nil => simp [named?]
  | cons m es ih =>
    by_cases hn : m.1 = name
    · simp [named?, hn]
    · simp only [named?, if_neg hn, ih, List.map_cons, List.mem_cons, Ne.symm hn, false_or]

/-! ### Look-ups by names -/

theorem at?_cons : e.at? (name :: names) = (named? name e.entries).bind (·.at? names) := by
  rw [at?]
  cases named? name e.entries <;> rfl

theorem at?_append : ∀ {e : Entry} {names : List Text},
    e.at? (names ++ more) = (e.at? names).bind (·.at? more)
  | _, [] => rfl
  | e, name :: names => by
    rw [List.cons_append, at?_cons, at?_cons, Option.bind_assoc]
    exact congrArg _ (funext fun _ => at?_append)

theorem at?_singleton : e.at? [name] = named? name e.entries := by
  rw [at?_cons]
  cases named? name e.entries <;> rfl

/-- The last name is listed in the directory that the names before it lead to. -/
theorem isSome_at?_concat : (e.at? (names ++ [name])).isSome ↔
    ∃ es, e.at? names = some (dir es) ∧ name ∈ es.map Prod.fst := by
  rw [at?_append]
  cases e.at? names with
  | none => simp
  | some last =>
    rw [Option.bind_some, at?_singleton]
    cases last with
    | file _ => simp [entries, named?]
    | dir es => simp [entries, isSome_named?]

/-- What names lead to in a file tree is a file tree, and they are names of
entries. -/
theorem isTree_of_at? : ∀ {e : Entry} {names : List Text}, e.isTree → e.at? names = some child →
    child.isTree ∧ ∀ name ∈ names, name.isFileName
  | _, [], h, hat => ⟨Option.some.inj hat ▸ h, by simp⟩
  | file _, _ :: _, _, hat => nomatch hat
  | dir es, name :: names, h, hat => by
    rw [at?_cons, Option.bind_eq_some_iff] at hat
    obtain ⟨next, hnamed, hat⟩ := hat
    obtain ⟨hname, hnext⟩ := (isTree_dir.mp h).2 _ (mem_of_named? hnamed)
    obtain ⟨hchild, hnames⟩ := isTree_of_at? hnext hat
    exact ⟨hchild, List.forall_mem_cons.mpr ⟨hname, hnames⟩⟩

/-! ### Walks -/

theorem directoriesIn_eq : ∀ es : List (Text × Entry),
    directoriesIn es = es.flatMap fun m => m.2.directories.map (m.1 :: ·)
  | [] => rfl
  | (name, e) :: es => by rw [directoriesIn, directoriesIn_eq es, List.flatMap_cons]

/-- **The directories of a walk are those that names lead to.** -/
theorem mem_directories : ∀ {e : Entry} {names : List Text}, e.isTree →
    (names ∈ e.directories ↔ ∃ es, e.at? names = some (dir es))
  | file _, [], _ => by simp [directories, at?]
  | file _, _ :: _, _ => by simp [directories, at?_cons, entries, named?]
  | dir es, [], _ => by simp [directories, at?]
  | dir es, name :: names, h => by
    obtain ⟨hnodup, hbelow⟩ := isTree_dir.mp h
    -- the walk goes through the list, the look-up stops at the first entry of a
    -- name: distinct names make these one entry
    have hwalk : name :: names ∈ (dir es).directories ↔
        ∃ e, (name, e) ∈ es ∧ names ∈ e.directories := by
      simp [directories, directoriesIn_eq]
    rw [hwalk, at?_cons]
    constructor
    · rintro ⟨e, hmem, hnames⟩
      obtain ⟨es', hes'⟩ := (mem_directories (hbelow _ hmem).2).mp hnames
      exact ⟨es', by rw [entries, (named?_eq_some hnodup).mpr hmem]; exact hes'⟩
    · rintro ⟨es', hes'⟩
      obtain ⟨e, hnamed, hes'⟩ := Option.bind_eq_some_iff.mp hes'
      have hmem := mem_of_named? hnamed
      exact ⟨e, hmem, (mem_directories (hbelow _ hmem).2).mpr ⟨es', hes'⟩⟩

/-! ### Trees put together -/

theorem mem_map_put : ∀ {es : List (Text × Entry)} {n : Text},
    n ∈ (put name e es).map Prod.fst ↔ n = name ∨ n ∈ es.map Prod.fst
  | [], n => by simp [put]
  | (m, old) :: es, n => by
    rw [put]
    split
    · rename_i hm
      simp [hm]
    · rw [List.map_cons, List.mem_cons, mem_map_put, List.map_cons, List.mem_cons]
      exact or_left_comm

theorem isTree_put (he : e.isTree) (hname : name.isFileName) : ∀ {es : List (Text × Entry)},
    (dir es).isTree → (dir (put name e es)).isTree
  | [], _ => by simp [put, isTree_dir, he, hname]
  | (n, old) :: es, h => by
    rw [isTree_dir, List.map_cons, List.nodup_cons, List.forall_mem_cons] at h
    obtain ⟨⟨hfresh, hnodup⟩, ⟨hn, hold⟩, hes⟩ := h
    rw [put]
    split
    · exact isTree_dir.mpr ⟨List.nodup_cons.mpr ⟨hfresh, hnodup⟩,
        List.forall_mem_cons.mpr ⟨⟨hn, he⟩, hes⟩⟩
    · rename_i hne
      have hput := isTree_dir.mp (isTree_put he hname (isTree_dir.mpr ⟨hnodup, hes⟩))
      have hfresh' : n ∉ (put name e es).map Prod.fst := fun hmem =>
        (mem_map_put.mp hmem).elim hne hfresh
      exact isTree_dir.mpr ⟨List.nodup_cons.mpr ⟨hfresh', hput.1⟩,
        List.forall_mem_cons.mpr ⟨⟨hn, hold⟩, hput.2⟩⟩

theorem isTree_foldl_put {added : List (Text × Entry)}
    (h : ∀ m ∈ added, m.1.isFileName ∧ m.2.isTree) (hes : (dir es).isTree) :
    (dir (added.foldl (fun held m => put m.1 m.2 held) es)).isTree := by
  induction added generalizing es with
  | nil => exact hes
  | cons m added ih =>
    rw [List.forall_mem_cons] at h
    exact ih h.2 (isTree_put h.1.2 h.1.1 hes)

theorem isTree_mergedWith {old : Option Entry} (he : e.isTree)
    (hold : ∀ o, old = some o → o.isTree) : (e.mergedWith old).isTree := by
  cases old with
  | none => exact he
  | some o =>
    cases o with
    | file _ => exact he
    | dir es =>
      cases e with
      | file _ => rfl
      | dir added => exact isTree_foldl_put (isTree_dir.mp he).2 (hold _ rfl)

theorem isTree_of_named? (h : (dir es).isTree) (hnamed : named? name es = some e) : e.isTree :=
  ((isTree_dir.mp h).2 _ (mem_of_named? hnamed)).2

theorem isTree_insert (he : e.isTree) : ∀ {names : List Text} {es : List (Text × Entry)},
    (∀ name ∈ names, name.isFileName) → (dir es).isTree → (dir (e.insert names es)).isTree
  | [], _, _, hes => hes
  | [name], es, hnames, hes =>
    isTree_put (isTree_mergedWith he fun _ => isTree_of_named? hes)
      (hnames name List.mem_cons_self) hes
  | name :: next :: names, es, hnames, hes => by
    rw [List.forall_mem_cons] at hnames
    refine isTree_put (isTree_insert he hnames.2 ?_) hnames.1 hes
    cases hnamed : named? name es with
    | none => rfl
    | some old =>
      cases old with
      | file _ => rfl
      | dir held => exact isTree_of_named? hes hnamed

end Entry

/-! ### Paths -/

namespace FileSystem

variable {fs : FileSystem} {p : Path} {e child : Entry} {place names more : List Text}

/-- Are the entries below the root a file tree? -/
def isTree (fs : FileSystem) : Bool := fs.root.isTree

/-- **What is put together from file trees, each at the end of some names, is a
file tree.** -/
theorem isTree_ofEntries {working : List Text} {held : List (List Text × Entry)}
    (h : ∀ m ∈ held, (∀ name ∈ m.1, name.isFileName) ∧ m.2.isTree) :
    (ofEntries working held).isTree := by
  have hloop : ∀ {es : List (Text × Entry)}, (Entry.dir es).isTree →
      (Entry.dir (held.foldl (fun es m => m.2.insert m.1 es) es)).isTree := by
    induction held with
    | nil => exact id
    | cons m held ih =>
      rw [List.forall_mem_cons] at h
      exact fun hes => ih h.2 (Entry.isTree_insert h.1.2 h.1.1 hes)
  exact hloop rfl

theorem follow_append : ∀ {place names : List Text},
    fs.follow place (names ++ more) = (fs.follow place names).bind (fs.follow · more)
  | _, [] => rfl
  | place, name :: names => by
    rw [List.cons_append, follow, follow]
    cases fs.root.at? place with
    | none => rfl
    | some e =>
      cases e with
      | file _ => rfl
      | dir es =>
        by_cases habove : name = ("..".toList : Text)
        · simp only [if_pos habove]
          exact follow_append
        · simp only [if_neg habove]
          cases (Entry.named? name es).isSome
          · rfl
          · exact follow_append

/-- Names other than `..` are followed as they are looked up. -/
theorem toOption_follow : ∀ {place names : List Text} {e : Entry},
    fs.root.at? place = some e → ("..".toList : Text) ∉ names →
    (fs.follow place names).toOption = (e.at? names).map fun _ => place ++ names
  | place, [], e, _, _ => by simp [follow, Except.toOption, Entry.at?]
  | place, name :: names, e, hat, hnames => by
    obtain ⟨hname, hnames⟩ := not_or.mp (mt List.mem_cons.mpr hnames)
    rw [follow, hat, Entry.at?_cons]
    cases e with
    | file _ => rfl
    | dir es =>
      simp only [if_neg (Ne.symm hname), Entry.entries]
      cases hnamed : Entry.named? name es with
      | none => rfl
      | some child =>
        have hnext : fs.root.at? (place ++ [name]) = some child := by
          rw [Entry.at?_append, hat]
          exact Entry.at?_singleton.trans hnamed
        simpa using toOption_follow hnext hnames

/-- The names that are followed are names of entries, apart from `..`. -/
theorem isFileName_of_follow (hfs : fs.isTree) : ∀ {place names : List Text} {last : List Text},
    fs.follow place names = .ok last → ∀ name ∈ names, name = ("..".toList : Text) ∨ name.isFileName
  | _, [], _, _ => by simp
  | place, name :: names, last, h => by
    rw [follow] at h
    split at h
    · cases h
    · cases h
    · rename_i es hat
      split at h
      · rename_i habove
        exact List.forall_mem_cons.mpr ⟨.inl habove, isFileName_of_follow hfs h⟩
      · split at h
        · rename_i hnamed
          obtain ⟨child, hchild⟩ := Option.isSome_iff_exists.mp hnamed
          have hes := Entry.isTree_dir.mp (Entry.isTree_of_at? hfs hat).1
          have hname := (hes.2 _ (Entry.mem_of_named? hchild)).1
          exact List.forall_mem_cons.mpr ⟨.inr hname, isFileName_of_follow hfs h⟩
        · cases h

/-- What a path leads to is at the place that it leads to. -/
theorem look_eq_ok (h : fs.look p = .ok e) :
    ∃ place, fs.follow (if p.root.isEmpty then fs.working else []) p.parts = .ok place ∧
      fs.root.at? place = some e := by
  rw [look] at h
  split at h
  · cases h
  · rename_i place hplace
    refine ⟨place, hplace, ?_⟩
    split at h
    · cases h
    · rename_i hat
      rw [hat, Except.ok.inj h]

theorem isDir_iff : fs.isDir p ↔ ∃ es, fs.look p = .ok (.dir es) := by
  rw [isDir]
  cases hlook : fs.look p with
  | error fault => simp
  | ok e => cases e <;> simp [Entry.isDir]

theorem isTree_of_look (hfs : fs.isTree) (h : fs.look p = .ok e) : e.isTree := by
  obtain ⟨place, -, hat⟩ := look_eq_ok h
  exact (Entry.isTree_of_at? hfs hat).1

/-- A path that leads to an entry holds no NUL. -/
theorem not_contains_nul_of_look (hfs : fs.isTree) (h : fs.look p = .ok e) :
    p.parts.any (·.contains '\x00') = false := by
  obtain ⟨place, hplace, -⟩ := look_eq_ok h
  rw [List.any_eq_false]
  intro part hpart
  rcases isFileName_of_follow hfs hplace part hpart with rfl | hname
  · decide
  · rw [Text.not_contains_nul_of_isFileName hname]
    decide

/-- **What a path leads to some names further down is what the names lead to
from its own entry.** -/
theorem toOption_look_below (h : fs.look p = .ok e) (hnames : ("..".toList : Text) ∉ names) :
    (fs.look (p.below names)).toOption = e.at? names := by
  obtain ⟨place, hplace, hat⟩ := look_eq_ok h
  have hfollow := toOption_follow hat hnames
  rw [look, Path.below, follow_append, hplace]
  simp only [Except.bind]
  cases hlast : fs.follow place names with
  | error fault =>
    rw [hlast] at hfollow
    exact (Option.map_eq_none_iff.mp hfollow.symm).symm
  | ok last =>
    rw [hlast] at hfollow
    obtain ⟨below, hbelow, rfl⟩ := Option.map_eq_some_iff.mp hfollow.symm
    simp only [Entry.at?_append, hat, Option.bind_some, hbelow]
    rfl

/-- A name leads on from a directory if it is listed there. -/
theorem hasEntry_child {es : List (Text × Entry)} {name : Text} (h : fs.look p = .ok (.dir es))
    (hname : name ≠ ("..".toList : Text)) :
    fs.hasEntry (p.child name) ↔ name ∈ es.map Prod.fst := by
  have hlook : (fs.look (p.child name)).toOption = Entry.named? name es :=
    (toOption_look_below h (by simpa using Ne.symm hname)).trans Entry.at?_singleton
  rw [← Entry.isSome_named?, ← hlook, hasEntry]
  cases fs.look (p.child name) <;> simp [Except.toBool, Except.toOption]

theorem look_below (hfs : fs.isTree) (h : fs.look p = .ok e) (hat : e.at? names = some child) :
    fs.look (p.below names) = .ok child := by
  have hnames : ("..".toList : Text) ∉ names := fun hmem =>
    Text.ne_above_of_isFileName ((Entry.isTree_of_at? (isTree_of_look hfs h) hat).2 _ hmem) rfl
  have hlook := (toOption_look_below h hnames).trans hat
  cases hbelow : fs.look (p.below names) with
  | error fault =>
    rw [hbelow] at hlook
    cases hlook
  | ok below =>
    rw [hbelow] at hlook
    rw [Option.some.inj hlook]

end FileSystem
end ClearSilver
