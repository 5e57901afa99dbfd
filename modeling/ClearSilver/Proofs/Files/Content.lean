/-
# Searching does not read

A search looks at names and at which of them are directories, never into a
file: with all files emptied it finds the same (`collect_emptied`). So it finds
the same after something has been written into a file (`collect_write`), and
what is read under a path is then the same as well, unless the path leads to
that file (`FileSystem.readBytes_write`).

Key definitions: `Entry.emptied`, `Entry.write`, `FileSystem.write`,
`FileSystem.place?`.
Key theorems: `collect_emptied`, `collect_write`, `FileSystem.readBytes_write`.
-/
import ClearSilver.Files.Search
import ClearSilver.Files.Template

namespace ClearSilver

/-! ### Files emptied -/

namespace Entry

mutual

/-- The entry with nothing in its files. -/
def emptied : Entry → Entry
  | file _ => file []
  | dir es => dir (emptiedAll es)

def emptiedAll : List (Text × Entry) → List (Text × Entry)
  | [] => []
  | (name, e) :: es => (name, e.emptied) :: emptiedAll es

end

theorem named?_emptiedAll (name : Text) : ∀ es : List (Text × Entry),
    named? name (emptiedAll es) = (named? name es).map emptied
  | [] => rfl
  | (n, e) :: es => by
    rw [emptiedAll, named?, named?, named?_emptiedAll name es]
    split <;> rfl

theorem isDir_emptied (e : Entry) : e.emptied.isDir = e.isDir := by
  cases e <;> rfl

theorem entries_emptied (e : Entry) : e.emptied.entries = emptiedAll e.entries := by
  cases e <;> rfl

theorem at?_emptied (names : List Text) : ∀ e : Entry,
    e.emptied.at? names = (e.at? names).map emptied := by
  induction names with
  | nil => exact fun _ => rfl
  | cons name names ih =>
    intro e
    rw [at?, at?, entries_emptied, named?_emptiedAll]
    cases named? name e.entries with
    | none => rfl
    | some child => exact ih child

mutual

theorem directories_emptied : ∀ e : Entry, e.emptied.directories = e.directories
  | file _ => rfl
  | dir es => congrArg ([] :: ·) (directoriesIn_emptiedAll es)

theorem directoriesIn_emptiedAll : ∀ es : List (Text × Entry),
    directoriesIn (emptiedAll es) = directoriesIn es
  | [] => rfl
  | (name, e) :: es => by
    rw [emptiedAll, directoriesIn, directoriesIn, directories_emptied e,
      directoriesIn_emptiedAll es]

end

end Entry

namespace FileSystem

variable (fs : FileSystem)

/-- The file system with nothing in its files. -/
def emptied : FileSystem := { fs with root := fs.root.emptied }

theorem follow_emptied (parts : List Text) : ∀ place : List Text,
    fs.emptied.follow place parts = fs.follow place parts := by
  induction parts with
  | nil => exact fun _ => rfl
  | cons part parts ih =>
    intro place
    rw [follow, follow, emptied, Entry.at?_emptied]
    cases fs.root.at? place with
    | none => rfl
    | some e =>
      cases e with
      | file content => rfl
      | dir es =>
        have hnamed : (Entry.named? part (Entry.emptiedAll es)).isSome =
            (Entry.named? part es).isSome := by
          rw [Entry.named?_emptiedAll, Option.isSome_map]
        simp only [Option.map_some, Entry.emptied, hnamed]
        rw [← emptied, ih, ih]

theorem look_emptied (p : Path) : fs.emptied.look p = (fs.look p).map Entry.emptied := by
  rw [look, look, follow_emptied]
  simp only [emptied]
  cases fs.follow (if p.root.isEmpty then fs.working else []) p.parts with
  | error fault => rfl
  | ok place =>
    simp only [Entry.at?_emptied]
    cases fs.root.at? place <;> rfl

theorem hasEntry_emptied (p : Path) : fs.emptied.hasEntry p = fs.hasEntry p := by
  rw [hasEntry, hasEntry, look_emptied]
  cases fs.look p <;> rfl

theorem isDir_emptied (p : Path) : fs.emptied.isDir p = fs.isDir p := by
  rw [isDir, isDir, look_emptied]
  cases fs.look p with
  | error fault => rfl
  | ok e => exact e.isDir_emptied

theorem entries_emptied (p : Path) : fs.emptied.entries p = Entry.emptiedAll (fs.entries p) := by
  rw [entries, entries, look_emptied]
  cases fs.look p with
  | error fault => rfl
  | ok e => exact e.entries_emptied

theorem directories_emptied (p : Path) : fs.emptied.directories p = fs.directories p := by
  rw [directories, directories, look_emptied]
  cases fs.look p with
  | error fault => rfl
  | ok e => exact e.directories_emptied

/-- What is found among the entries of a directory depends on their names and
on which are directories. -/
theorem flatMap_emptiedAll {α : Type} (f : Text → Bool → List α) : ∀ es : List (Text × Entry),
    ((Entry.emptiedAll es).flatMap fun m => f m.1 m.2.isDir) = es.flatMap fun m => f m.1 m.2.isDir
  | [] => rfl
  | (name, e) :: es => by
    rw [Entry.emptiedAll, List.flatMap_cons, List.flatMap_cons, flatMap_emptiedAll f es,
      Entry.isDir_emptied]

theorem select_emptied (parts : List Part) : ∀ p : Path,
    fs.emptied.select parts p = fs.select parts p := by
  induction parts with
  | nil => exact fun _ => rfl
  | cons part parts ih =>
    intro p
    cases part with
    | here => rfl
    | anyDepth => simp only [select, directories_emptied, ih]
    | exact name => simp only [select, hasEntry_emptied, isDir_emptied, ih]
    | wild pieces =>
      simp only [select, entries_emptied, ih]
      exact flatMap_emptiedAll (fun name directory =>
        if (parts.isEmpty || directory) && Piece.matches pieces name then
          fs.select parts (p.child name)
        else []) (fs.entries p)

theorem search_emptied (patterns : List Text) (p : Path) :
    fs.emptied.search patterns p = fs.search patterns p := by
  simp only [search, select_emptied]

end FileSystem

/-- **A search finds the same with all files emptied.** -/
theorem collect_emptied (fs : FileSystem) (patterns : List Text) (paths : List Path) :
    collect fs.emptied patterns paths = collect fs patterns paths := by
  simp only [collect, FileSystem.isDir_emptied, FileSystem.search_emptied]

/-! ### Something written into a file -/

namespace Entry

/-- The entries with a change to the one of a name. -/
def alter (name : Text) (f : Entry → Entry) : List (Text × Entry) → List (Text × Entry)
  | [] => []
  | (n, e) :: es => if n = name then (n, f e) :: es else (n, e) :: alter name f es

/-- The entry with another content of the file at the end of some names. Where
there is no file nothing is changed. -/
def write (content : List UInt8) : List Text → Entry → Entry
  | [], file _ => file content
  | name :: names, dir es => dir (alter name (write content names) es)
  | _, e => e

/-- The content of a file. -/
def content? : Entry → Option (List UInt8)
  | file content => some content
  | dir _ => none

theorem emptiedAll_alter {f : Entry → Entry} (hf : ∀ e, (f e).emptied = e.emptied) (name : Text) :
    ∀ es : List (Text × Entry), emptiedAll (alter name f es) = emptiedAll es
  | [] => rfl
  | (n, e) :: es => by
    rw [alter]
    split
    · rw [emptiedAll, emptiedAll, hf]
    · rw [emptiedAll, emptiedAll, emptiedAll_alter hf name es]

theorem emptied_write (content : List UInt8) (place : List Text) : ∀ e : Entry,
    (e.write content place).emptied = e.emptied := by
  induction place with
  | nil => exact fun e => by cases e <;> rfl
  | cons name names ih =>
    intro e
    cases e with
    | file old => rfl
    | dir es => exact congrArg dir (emptiedAll_alter ih name es)

theorem named?_alter (name : Text) (f : Entry → Entry) (n : Text) :
    ∀ es : List (Text × Entry), named? n (alter name f es) =
      if n = name then (named? n es).map f else named? n es
  | [] => by simp [alter, named?]
  | (m, e) :: es => by
    have ih := named?_alter name f n es
    by_cases hm : m = name
    · subst hm
      by_cases hn : n = m
      · subst hn
        simp [alter, named?]
      · simp [alter, named?, hn, Ne.symm hn]
    · by_cases hn : n = name
      · subst hn
        simp [alter, named?, hm, ih]
      · simp only [alter, named?, if_neg hm, ih, if_neg hn]

/-- Other files are as they were. -/
theorem content?_at?_write {content : List UInt8} {place other : List Text}
    (h : other ≠ place) (e : Entry) :
    ((e.write content place).at? other).map content? = (e.at? other).map content? := by
  induction place generalizing other e with
  | nil =>
    cases other with
    | nil => exact absurd rfl h
    | cons n names => cases e <;> rfl
  | cons name names ih =>
    cases e with
    | file c => rfl
    | dir es =>
      cases other with
      | nil => rfl
      | cons n others =>
        rw [write, at?, at?, entries, entries, named?_alter]
        by_cases hn : n = name
        · subst hn
          rw [if_pos rfl]
          cases named? n es with
          | none => rfl
          | some child => exact ih (fun hsame => h (congrArg (n :: ·) hsame)) child
        · rw [if_neg hn]

end Entry

namespace FileSystem

variable (fs : FileSystem)

/-- Another content for the file at a place. -/
def write (place : List Text) (content : List UInt8) : FileSystem :=
  { fs with root := fs.root.write content place }

/-- The place that a path leads to. -/
def place? (p : Path) : Except AccessFault (List Text) :=
  fs.follow (if p.root.isEmpty then fs.working else []) p.parts

theorem emptied_write (place : List Text) (content : List UInt8) :
    (fs.write place content).emptied = fs.emptied := by
  rw [emptied, emptied, write, Entry.emptied_write]

theorem place?_write (place : List Text) (content : List UInt8) (p : Path) :
    (fs.write place content).place? p = fs.place? p := by
  rw [place?, ← follow_emptied, emptied_write, follow_emptied, write, place?]

/-- The bytes of a file are the content of what stands at the place of the path. -/
theorem readBytes_eq (p : Path) :
    fs.readBytes p =
      if p.parts.any (·.contains '\x00') then .error .nulInPath
      else
        match fs.place? p with
        | .error fault => .error (.access fault p)
        | .ok place =>
          match (fs.root.at? place).map Entry.content? with
          | none => .error (.access .notFound p)
          | some none => .error (.access .isDirectory p)
          | some (some bytes) => .ok bytes := by
  rw [readBytes, look, place?]
  split
  · rfl
  · cases fs.follow (if p.root.isEmpty then fs.working else []) p.parts with
    | error fault => rfl
    | ok place =>
      cases hat : fs.root.at? place with
      | none => simp only [hat, Option.map_none]
      | some e => cases e <;> simp only [hat, Option.map_some, Entry.content?]

/-- **A path that does not lead to the file that was written is read as before.** -/
theorem readBytes_write {place : List Text} {p : Path} (h : fs.place? p ≠ .ok place)
    (content : List UInt8) : (fs.write place content).readBytes p = fs.readBytes p := by
  rw [readBytes_eq, readBytes_eq, place?_write]
  cases hp : fs.place? p with
  | error fault => rfl
  | ok other =>
    have hother : other ≠ place := fun hsame => h (hp.trans (congrArg Except.ok hsame))
    simp only [write, Entry.content?_at?_write hother]

end FileSystem

/-- **A search finds the same after something has been written into a file.** -/
theorem collect_write (fs : FileSystem) (place : List Text) (content : List UInt8)
    (patterns : List Text) (paths : List Path) :
    collect (fs.write place content) patterns paths = collect fs patterns paths := by
  rw [← collect_emptied, FileSystem.emptied_write, collect_emptied]

/-- So is the tree of a file, or the fault. -/
theorem parseFile_write {fs : FileSystem} {place : List Text} {p : Path}
    (h : fs.place? p ≠ .ok place) (content : List UInt8) (encoding : Encoding) :
    parseFile (fs.write place content) encoding p = parseFile fs encoding p := by
  simp only [parseFile, FileSystem.readText, fs.readBytes_write h content]

theorem FileSystem.readBytes_eq_nulInPath (fs : FileSystem) (p : Path) :
    fs.readBytes p = .error .nulInPath ↔ p.parts.any (·.contains '\x00') = true := by
  rw [readBytes]
  cases hnul : p.parts.any (·.contains '\x00') with
  | true => simp only [if_true]
  | false =>
    simp only [Bool.false_eq_true, if_false, iff_false]
    cases fs.look p with
    | error fault => simp
    | ok e => cases e <;> simp

/-- Whether a path can be asked for does not depend on the files. -/
theorem parseFile_eq_nulInPath (fs : FileSystem) {encoding : Encoding} {p : Path} :
    parseFile fs encoding p = .error .nulInPath ↔ p.parts.any (·.contains '\x00') = true := by
  rw [← fs.readBytes_eq_nulInPath, parseFile, FileSystem.readText]
  cases fs.readBytes p with
  | error fault => simp [Bind.bind, Except.bind]
  | ok bytes =>
    simp only [Bind.bind, Except.bind, reduceCtorEq, iff_false]
    cases encoding.decode bytes with
    | error fault => exact nofun
    | ok text =>
      change (parse text.withLineFeeds p.text).mapError FileFault.parse ≠ .error .nulInPath
      cases parse text.withLineFeeds p.text <;> exact nofun

end ClearSilver
