/-
# What a search finds

Patterns for names find below a directory, at any depth, the entries whose name
one of them matches, and nothing else (`FileSystem.mem_found`). They are listed
in strictly increasing order of their paths (`FileSystem.pairwise_found`). Such a
list is determined by what is in it, so it does not matter in which order or how
often the patterns are given (`FileSystem.found_eq_of_mem_iff`).

A list of paths is expanded path by path: a directory into what is found below
it, any other path into itself (`collect_eq`).

Key definitions: `Path.Before`, `FileSystem.MatchBelow`, `FileSystem.found`,
`FileSystem.expansion`.
Key theorems: `FileSystem.mem_select_anyDepth`, `FileSystem.mem_found`,
`FileSystem.pairwise_found`, `collect_eq`, `collect_expands`.
-/
import Mathlib.Data.List.Sort
import ClearSilver.Files.Search
import ClearSilver.Proofs.Files.Pattern
import ClearSilver.Proofs.Files.Tree

namespace ClearSilver

/-! ### The order of paths -/

namespace Path

variable {p q r d : Path}

/-- Does a path come before another, by their components one after the other? -/
def Before (p q : Path) : Prop := p.components < q.components

instance : DecidableRel Before := fun p q =>
  inferInstanceAs (Decidable (p.components < q.components))

instance : Std.Irrefl Before := ⟨fun p => List.lt_irrefl p.components⟩

instance : Std.Asymm Before := ⟨fun _ _ => List.lt_asymm⟩

theorem le_iff : le p q ↔ ¬ q.Before p := by
  simp [le, Before]

theorem le_trans (p q r : Path) (h : le p q) (h' : le q r) : le p r := by
  rw [le_iff, Before, List.not_lt] at *
  exact List.le_trans h h'

theorem le_total (p q : Path) : (le p q || le q p) = true := by
  rw [Bool.or_eq_true, le_iff, le_iff, ← not_and_or]
  exact fun ⟨h, h'⟩ => List.lt_asymm h h'

theorem child_below {names : List Text} {name : Text} :
    (d.below names).child name = d.below (names ++ [name]) := by
  rw [child, below, below, List.append_assoc]

theorem components_below_inj {names more : List Text}
    (h : (d.below names).components = (d.below more).components) : names = more := by
  unfold components below at h
  split at h
  · exact List.append_cancel_left h
  · exact List.append_cancel_left (List.cons.inj h).2

/-- Of two paths that go on from one path, one comes before the other. -/
theorem before_of_le {names more : List Text} (h : le (d.below names) (d.below more))
    (hne : d.below names ≠ d.below more) : (d.below names).Before (d.below more) := by
  by_contra hnot
  rw [le_iff, Before, List.not_lt] at h
  rw [Before, List.not_lt] at hnot
  exact hne (congrArg d.below (components_below_inj (List.le_antisymm h hnot)))

end Path

/-! ### Lists -/

/-- A loop in which nothing fails gives what each round gives. -/
theorem mapM_eq_ok {ε α β : Type} {f : α → Except ε β} {g : α → β} : ∀ {l : List α},
    (∀ a ∈ l, f a = .ok (g a)) → l.mapM f = .ok (l.map g)
  | [], _ => rfl
  | a :: l, h => by
    rw [List.forall_mem_cons] at h
    rw [List.mapM_cons, h.1, mapM_eq_ok h.2]
    rfl

theorem nodup_eraseDups {α : Type} [BEq α] [LawfulBEq α] : ∀ l : List α, l.eraseDups.Nodup
  | [] => by simp
  | a :: l => by
    rw [List.eraseDups_cons, List.nodup_cons]
    exact ⟨by simp, nodup_eraseDups _⟩
termination_by l => l.length
decreasing_by exact Nat.lt_succ_of_le (List.length_filter_le _ _)

namespace FileSystem

variable {fs : FileSystem} {patterns others : List Text} {t : Text} {d p q : Path}
  {top e : Entry} {es : List (Text × Entry)}

/-! ### One pattern -/

/-- In one directory a pattern for names finds the entries whose names it
matches. -/
theorem mem_select_namePart (ht : t.isNamePattern) (hq : fs.look q = .ok (.dir es)) :
    p ∈ fs.select [namePart t] q ↔
      ∃ name ∈ es.map Prod.fst, name.IsNamedBy t ∧ p = q.child name := by
  have habove : t ≠ ("..".toList : Text) := by
    rintro rfl
    cases ht
  by_cases hwild : t.any isWildcard
  · rw [namePart, if_pos hwild]
    simp [select, entries, hq, Entry.entries, Text.IsNamedBy, Piece.matches_iff]
  · have hplain : ∀ name : Text, name.IsNamedBy t ↔ name = t := fun name =>
      Text.isNamedBy_of_plain (eq_false_of_ne_true hwild)
    rw [namePart, if_neg hwild]
    simp only [select, List.isEmpty_nil, if_true, hplain]
    by_cases hhas : fs.hasEntry (q.child t)
    · simp [hhas, (hasEntry_child hq habove).mp hhas]
    · simp [hhas, mt (hasEntry_child hq habove).mpr hhas]

/-- **A pattern for names finds the entries below a directory, at any depth,
whose names it matches.** -/
theorem mem_select_anyDepth (hfs : fs.isTree) (ht : t.isNamePattern) (hd : fs.look d = .ok top) :
    p ∈ fs.select [.anyDepth, namePart t] d ↔ ∃ names name,
      (top.at? (names ++ [name])).isSome ∧ name.IsNamedBy t ∧ p = d.below (names ++ [name]) := by
  have htop := isTree_of_look hfs hd
  have hwalk {names : List Text} :
      names ∈ fs.directories d ↔ ∃ es, top.at? names = some (.dir es) := by
    rw [directories, hd]
    exact Entry.mem_directories htop
  have hlook {names : List Text} {es : List (Text × Entry)} (hat : top.at? names = some (.dir es)) :
      p ∈ fs.select [namePart t] (d.below names) ↔
        ∃ name ∈ es.map Prod.fst, name.IsNamedBy t ∧ p = d.below (names ++ [name]) := by
    rw [mem_select_namePart ht (look_below hfs hd hat)]
    simp only [Path.child_below]
  simp only [select, List.mem_flatMap, hwalk]
  constructor
  · rintro ⟨names, ⟨es, hat⟩, hp⟩
    obtain ⟨name, hname, hnamed, hpath⟩ := (hlook hat).mp hp
    exact ⟨names, name, Entry.isSome_at?_concat.mpr ⟨es, hat, hname⟩, hnamed, hpath⟩
  · rintro ⟨names, name, hsome, hnamed, hpath⟩
    obtain ⟨es, hat, hname⟩ := Entry.isSome_at?_concat.mp hsome
    exact ⟨names, ⟨es, hat⟩, (hlook hat).mpr ⟨name, hname, hnamed, hpath⟩⟩

/-! ### Several patterns -/

/-- Is an entry strictly below a directory, under a path that goes on from that of
the directory to a name that one of the patterns matches? -/
def MatchBelow (fs : FileSystem) (patterns : List Text) (d p : Path) (e : Entry) : Prop :=
  ∃ top names name, fs.look d = .ok top ∧ top.at? (names ++ [name]) = some e ∧
    (∃ t ∈ patterns, name.IsNamedBy t) ∧ p = d.below (names ++ [name])

/-- What each of some patterns for names finds below a directory. -/
def foundByEach (fs : FileSystem) (patterns : List Text) (d : Path) : List Path :=
  patterns.flatMap fun t => fs.select [.anyDepth, namePart t] d

/-- What patterns for names find below a directory. -/
def found (fs : FileSystem) (patterns : List Text) (d : Path) : List Path :=
  (fs.foundByEach patterns d).eraseDups.mergeSort Path.le

theorem search_eq (hpatterns : ∀ t ∈ patterns, t.isNamePattern) :
    fs.search patterns d = .ok (fs.found patterns d) := by
  have hparts : patterns.mapM patternParts = .ok (patterns.map fun t => [namePart t]) :=
    mapM_eq_ok fun t ht => patternParts_of_isNamePattern (hpatterns t ht)
  rw [search, hparts]
  simp only [Bind.bind, Except.bind, List.flatMap_map]
  rfl

/-- **The entries below a directory with a name that one of the patterns matches
are found**, and no other paths are. -/
theorem mem_found (hfs : fs.isTree) (hpatterns : ∀ t ∈ patterns, t.isNamePattern)
    (hd : fs.isDir d) : p ∈ fs.found patterns d ↔ ∃ e, fs.MatchBelow patterns d p e := by
  obtain ⟨es, htop⟩ := isDir_iff.mp hd
  rw [found, List.mem_mergeSort, List.mem_eraseDups, foundByEach, List.mem_flatMap]
  constructor
  · rintro ⟨t, ht, hp⟩
    obtain ⟨names, name, hsome, hnamed, hpath⟩ :=
      (mem_select_anyDepth hfs (hpatterns t ht) htop).mp hp
    obtain ⟨e, hat⟩ := Option.isSome_iff_exists.mp hsome
    exact ⟨e, _, names, name, htop, hat, ⟨t, ht, hnamed⟩, hpath⟩
  · rintro ⟨e, top', names, name, htop', hat, ⟨t, ht, hnamed⟩, hpath⟩
    obtain rfl := Except.ok.inj (htop.symm.trans htop')
    exact ⟨t, ht, (mem_select_anyDepth hfs (hpatterns t ht) htop).mpr
      ⟨names, name, Option.isSome_of_eq_some hat, hnamed, hpath⟩⟩

/-- **What is found is in strictly increasing order.** -/
theorem pairwise_found (hfs : fs.isTree) (hpatterns : ∀ t ∈ patterns, t.isNamePattern)
    (hd : fs.isDir d) : (fs.found patterns d).Pairwise Path.Before := by
  have hle : (fs.found patterns d).Pairwise (fun p q => Path.le p q) :=
    List.pairwise_mergeSort Path.le_trans Path.le_total _
  have hne : (fs.found patterns d).Pairwise (· ≠ ·) :=
    (List.mergeSort_perm _ _).nodup_iff.mpr (nodup_eraseDups _)
  -- components alone do not tell a root from a first name, but all that is found
  -- goes on from the same path
  refine (hle.and hne).imp_of_mem fun hp hq ⟨hle, hne⟩ => ?_
  obtain ⟨_, _, _, _, _, _, _, rfl⟩ := (mem_found hfs hpatterns hd).mp hp
  obtain ⟨_, _, _, _, _, _, _, rfl⟩ := (mem_found hfs hpatterns hd).mp hq
  exact Path.before_of_le hle hne

/-- A list in strictly increasing order of what the patterns find is what is found. -/
theorem found_eq_of_pairwise (hfs : fs.isTree) (hpatterns : ∀ t ∈ patterns, t.isNamePattern)
    (hd : fs.isDir d) {l : List Path} (hl : l.Pairwise Path.Before)
    (hsub : l ⊆ fs.foundByEach patterns d) (hsup : fs.foundByEach patterns d ⊆ l) :
    fs.found patterns d = l := by
  refine (pairwise_found hfs hpatterns hd).eq_of_mem_iff hl fun p => ?_
  rw [found, List.mem_mergeSort, List.mem_eraseDups]
  exact ⟨fun hp => hsup hp, fun hp => hsub hp⟩

/-- The same patterns in another order, or given more often, find the same. -/
theorem found_eq_of_mem_iff (hfs : fs.isTree) (hpatterns : ∀ t ∈ patterns, t.isNamePattern)
    (hsame : ∀ t, t ∈ others ↔ t ∈ patterns) (hd : fs.isDir d) :
    fs.found others d = fs.found patterns d := by
  have hothers : ∀ t ∈ others, t.isNamePattern := fun t ht => hpatterns t ((hsame t).mp ht)
  refine (pairwise_found hfs hothers hd).eq_of_mem_iff (pairwise_found hfs hpatterns hd) fun p => ?_
  simp only [mem_found hfs hothers hd, mem_found hfs hpatterns hd, MatchBelow, hsame]

/-! ### Expanding a list of paths -/

/-- The paths that a path stands for. -/
def expansion (fs : FileSystem) (patterns : List Text) (p : Path) : List Path :=
  if fs.isDir p then fs.found patterns p else [p]

end FileSystem

section
variable {fs : FileSystem} {patterns : List Text}

/-- **A list of paths is expanded path by path.** -/
theorem collect_eq (hpatterns : ∀ t ∈ patterns, t.isNamePattern) (paths : List Path) :
    collect fs patterns paths = .ok (paths.flatMap (fs.expansion patterns)) := by
  have hexpanded : (paths.mapM fun p => if fs.isDir p then fs.search patterns p else pure [p]) =
      .ok (paths.map (fs.expansion patterns)) := by
    refine mapM_eq_ok fun p _ => ?_
    rw [FileSystem.expansion, FileSystem.search_eq hpatterns]
    split <;> rfl
  rw [collect, hexpanded]
  rfl

theorem collect_dir (hpatterns : ∀ t ∈ patterns, t.isNamePattern) {d : Path} (hd : fs.isDir d) :
    collect fs patterns [d] = .ok (fs.found patterns d) := by
  rw [collect_eq hpatterns, List.flatMap_singleton, FileSystem.expansion, if_pos hd]

/-- **Expanding a list of paths is exact, ordered and independent of how the
patterns are given.** -/
theorem collect_expands (hfs : fs.isTree) (hpatterns : ∀ t ∈ patterns, t.isNamePattern) :
    (∀ paths more, ∃ found foundMore, collect fs patterns paths = .ok found ∧
      collect fs patterns more = .ok foundMore ∧
      collect fs patterns (paths ++ more) = .ok (found ++ foundMore)) ∧
    (∀ p, fs.isDir p = false → collect fs patterns [p] = .ok [p]) ∧
    (∀ d, fs.isDir d → ∃ found, collect fs patterns [d] = .ok found ∧
      found.Pairwise Path.Before ∧ found.Nodup ∧
      ∀ p, p ∈ found ↔ ∃ e, fs.MatchBelow patterns d p e) ∧
    ∀ others, (∀ t, t ∈ others ↔ t ∈ patterns) → ∀ paths,
      collect fs others paths = collect fs patterns paths := by
  refine ⟨fun paths more => ?_, fun p hp => ?_, fun d hd => ?_, fun others hsame paths => ?_⟩
  · refine ⟨_, _, collect_eq hpatterns paths, collect_eq hpatterns more, ?_⟩
    rw [collect_eq hpatterns, List.flatMap_append]
  · rw [collect_eq hpatterns, List.flatMap_singleton, FileSystem.expansion, hp]
    rfl
  · have hsorted := FileSystem.pairwise_found hfs hpatterns hd
    exact ⟨fs.found patterns d, collect_dir hpatterns hd, hsorted, hsorted.nodup, fun p =>
      FileSystem.mem_found hfs hpatterns hd⟩
  · have hothers : ∀ t ∈ others, t.isNamePattern := fun t ht => hpatterns t ((hsame t).mp ht)
    -- the lists agree path by path: both are what their members are
    have hexpansion : fs.expansion others = fs.expansion patterns := by
      funext p
      rw [FileSystem.expansion, FileSystem.expansion]
      split
      · rename_i hd
        exact FileSystem.found_eq_of_mem_iff hfs hpatterns hsame hd
      · rfl
    rw [collect_eq hothers, collect_eq hpatterns, hexpansion]

end

/-- Names that two patterns match, hidden ones, a directory that a pattern matches
and one that comes before the file that it begins like. -/
theorem collect_expands_nested :
    let fs : FileSystem := ⟨.dir [("t", .dir [("a.cs", .file []), ("notes.txt", .file []),
      ("a", .dir [("b.cs", .file []), ("empty", .dir [])]), (".c.cst", .file []),
      ("old.cs", .dir [("in.cs", .file [])])]), ("b.txt", .file [])], []⟩
    let patterns : List Text := ["*.cs", "[!x]*.cs?", "*.cs"]
    let found : List Path := [⟨[], ["t", ".c.cst"]⟩, ⟨[], ["t", "a", "b.cs"]⟩, ⟨[], ["t", "a.cs"]⟩,
      ⟨[], ["t", "old.cs"]⟩, ⟨[], ["t", "old.cs", "in.cs"]⟩]
    fs.isTree ∧ (∀ t ∈ patterns, t.isNamePattern) ∧
    collect fs ["[!x]*.cs?", "*.cs"] [⟨[], ["t"]⟩, ⟨[], ["b.txt"]⟩] =
      .ok (found ++ [⟨[], ["b.txt"]⟩]) ∧
    found.Pairwise Path.Before ∧
    ∀ p, p ∈ found ↔ ∃ e, fs.MatchBelow patterns ⟨[], ["t"]⟩ p e := by
  intro fs patterns found
  have hfs : fs.isTree := by decide
  have hpatterns : ∀ t ∈ patterns, t.isNamePattern := by decide
  have hd : fs.isDir ⟨[], ["t"]⟩ := by decide
  have hfound : collect fs patterns [⟨[], ["t"]⟩] = .ok found := by
    rw [collect_dir hpatterns hd]
    exact congrArg Except.ok (FileSystem.found_eq_of_pairwise hfs hpatterns hd (by decide)
      (by decide +kernel) (by decide +kernel))
  obtain ⟨happend, hfile, hdir, hothers⟩ := collect_expands hfs hpatterns
  obtain ⟨found', hfound', hsorted, -, hexact⟩ := hdir ⟨[], ["t"]⟩ hd
  obtain rfl := Except.ok.inj (hfound.symm.trans hfound')
  obtain ⟨first, second, hfirst, hsecond, hboth⟩ := happend [⟨[], ["t"]⟩] [⟨[], ["b.txt"]⟩]
  obtain rfl := Except.ok.inj (hfound.symm.trans hfirst)
  obtain rfl := Except.ok.inj ((hfile ⟨[], ["b.txt"]⟩ (by decide)).symm.trans hsecond)
  refine ⟨hfs, hpatterns, ?_, hsorted, hexact⟩
  rw [hothers _ (by simp [patterns])]
  exact hboth

end ClearSilver
