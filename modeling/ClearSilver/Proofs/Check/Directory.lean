/-
# Checking one directory

A directory whose name a pattern matches is found like a file, and then it cannot
be read. So when all files that are found below a directory parse, the check of
that directory counts just these files as parsed, and it fails if and only if
directories are found among them: its errors are these directories
(`runChecker_directory`). There is a report unless the tree of a file is to be
printed as JSON and cannot be.

Key definitions: `countLine`, `FileSystem.filesBelow`, `FileSystem.directoriesBelow`,
`FileSystem.directoryLine`.
Key theorems: `FileSystem.mem_filesBelow`, `FileSystem.mem_directoriesBelow`,
`runChecker_directory`.
-/
import ClearSilver.Proofs.Check.Report
import ClearSilver.Proofs.Files.Search

namespace ClearSilver

/-- The line that says how many of some files parse. -/
def countLine (parsed all : Nat) : Text :=
  "  Total: " ++ decimal parsed ++ "/" ++ decimal all ++ " templates parse"

theorem totalLine_eq (fs : FileSystem) (files : List Path) :
    totalLine fs files = countLine (files.countP fs.parses) files.length := rfl

namespace FileSystem

variable {fs : FileSystem} {patterns : List Text} {d p : Path} {e : Entry}

/-! ### Files and directories among what is found -/

theorem MatchBelow.look (hfs : fs.isTree) (h : fs.MatchBelow patterns d p e) :
    fs.look p = .ok e := by
  obtain ⟨top, names, name, htop, hat, -, rfl⟩ := h
  exact look_below hfs htop hat

theorem MatchBelow.isDir (hfs : fs.isTree) (h : fs.MatchBelow patterns d p e) :
    fs.isDir p = e.isDir := by
  rw [FileSystem.isDir, h.look hfs]

/-- The files that patterns for names find below a directory. -/
def filesBelow (fs : FileSystem) (patterns : List Text) (d : Path) : List Path :=
  (fs.found patterns d).filter fun p => !fs.isDir p

/-- The directories that patterns for names find below a directory. -/
def directoriesBelow (fs : FileSystem) (patterns : List Text) (d : Path) : List Path :=
  (fs.found patterns d).filter fs.isDir

theorem length_found : (fs.found patterns d).length =
    (fs.filesBelow patterns d).length + (fs.directoriesBelow patterns d).length := by
  rw [filesBelow, directoriesBelow, Nat.add_comm]
  exact List.length_eq_length_filter_add _

section
variable (hfs : fs.isTree) (hpatterns : ∀ t ∈ patterns, t.isNamePattern) (hd : fs.isDir d)
include hfs hpatterns hd

theorem mem_found_and_isDir {b : Bool} : p ∈ fs.found patterns d ∧ fs.isDir p = b ↔
    ∃ e, e.isDir = b ∧ fs.MatchBelow patterns d p e := by
  rw [mem_found hfs hpatterns hd]
  constructor
  · rintro ⟨⟨e, hmatch⟩, hp⟩
    exact ⟨e, (hmatch.isDir hfs).symm.trans hp, hmatch⟩
  · rintro ⟨e, he, hmatch⟩
    exact ⟨⟨e, hmatch⟩, (hmatch.isDir hfs).trans he⟩

theorem mem_filesBelow : p ∈ fs.filesBelow patterns d ↔
    ∃ content, fs.MatchBelow patterns d p (.file content) := by
  rw [filesBelow, List.mem_filter, Bool.not_eq_true', mem_found_and_isDir hfs hpatterns hd]
  constructor
  · rintro ⟨e, he, hmatch⟩
    cases e with
    | file content => exact ⟨content, hmatch⟩
    | dir es => cases he
  · rintro ⟨content, hmatch⟩
    exact ⟨_, rfl, hmatch⟩

theorem mem_directoriesBelow : p ∈ fs.directoriesBelow patterns d ↔
    ∃ es, fs.MatchBelow patterns d p (.dir es) := by
  rw [directoriesBelow, List.mem_filter, mem_found_and_isDir hfs hpatterns hd]
  constructor
  · rintro ⟨e, he, hmatch⟩
    cases e with
    | file content => cases he
    | dir es => exact ⟨es, hmatch⟩
  · rintro ⟨es, hmatch⟩
    exact ⟨_, rfl, hmatch⟩

end

/-! ### What is said of them -/

/-- A directory is no file. -/
theorem parseFile_of_isDir (hfs : fs.isTree) (hp : fs.isDir p) (encoding : Encoding) :
    parseFile fs encoding p = .error (.access .isDirectory p) := by
  obtain ⟨es, hlook⟩ := isDir_iff.mp hp
  have hread : fs.readBytes p = .error (.access .isDirectory p) := by
    rw [readBytes, not_contains_nul_of_look hfs hlook, hlook]
    rfl
  rw [parseFile, readText, hread]
  rfl

/-- A directory has no tree that would have to be printed. -/
theorem shows_of_isDir {lib : JsonLibrary} {o : Options} (hfs : fs.isTree) (hp : fs.isDir p) :
    fs.shows lib o p = true := by
  rw [shows, parseFile_of_isDir hfs hp]

theorem forall_shows_iff {lib : JsonLibrary} {o : Options} (hfs : fs.isTree) :
    (∀ p ∈ fs.found patterns d, fs.shows lib o p) ↔
      ∀ p ∈ fs.filesBelow patterns d, fs.shows lib o p := by
  constructor
  · intro h p hp
    exact h p (List.mem_filter.mp hp).1
  · intro h p hp
    cases hdir : fs.isDir p with
    | true => exact shows_of_isDir hfs hdir
    | false => exact h p (List.mem_filter.mpr ⟨hp, by rw [hdir]; rfl⟩)

/-- The line that says of a directory that it is no file. -/
def directoryLine (p : Path) : Text :=
  "    " ++ p.text ++ ": " ++ AccessFault.isDirectory.message p

theorem faultLine?_of_isDir (hfs : fs.isTree) (hp : fs.isDir p) :
    fs.faultLine? p = some (directoryLine p) := by
  rw [faultLine?, reason?, parseFile_of_isDir hfs hp]
  rfl

theorem faultLine?_of_parses (hp : fs.parses p) : fs.faultLine? p = none := by
  have hnone : fs.reason? p = none := by
    rw [← Option.not_isSome_iff_eq_none, fs.isSome_reason?, hp]
    decide
  rw [faultLine?, hnone]
  rfl

/-- What is found can be asked for. -/
theorem parseFile_ne_nulInPath (hfs : fs.isTree) (hpatterns : ∀ t ∈ patterns, t.isNamePattern)
    (hd : fs.isDir d) (hp : p ∈ fs.found patterns d) :
    parseFile fs .utf8 p ≠ .error .nulInPath := by
  obtain ⟨e, hmatch⟩ := (mem_found hfs hpatterns hd).mp hp
  rw [ne_eq, parseFile_eq_nulInPath, not_contains_nul_of_look hfs (hmatch.look hfs)]
  exact Bool.false_ne_true

section
variable (hfs : fs.isTree) (hpatterns : ∀ t ∈ patterns, t.isNamePattern) (hd : fs.isDir d)
  (hparse : ∀ p content, fs.MatchBelow patterns d p (.file content) → fs.parses p)
include hfs hpatterns hd hparse

/-- Where every file that is found parses, what does not parse is a directory. -/
theorem parses_of_mem_found (hp : p ∈ fs.found patterns d) : fs.parses p = !fs.isDir p := by
  cases hdir : fs.isDir p with
  | true =>
    rw [parses, parseFile_of_isDir hfs hdir]
    rfl
  | false =>
    have hfile : p ∈ fs.filesBelow patterns d := List.mem_filter.mpr ⟨hp, by rw [hdir]; rfl⟩
    obtain ⟨content, hmatch⟩ := (mem_filesBelow hfs hpatterns hd).mp hfile
    exact hparse p content hmatch

theorem forall_parses_iff :
    (∀ p ∈ fs.found patterns d, fs.parses p) ↔ fs.directoriesBelow patterns d = [] := by
  rw [directoriesBelow, List.filter_eq_nil_iff]
  refine forall₂_congr fun p hp => ?_
  rw [parses_of_mem_found hfs hpatterns hd hparse hp, Bool.not_eq_true', Bool.not_eq_true]

theorem totalLine_found : totalLine fs (fs.found patterns d) =
    countLine (fs.filesBelow patterns d).length
      ((fs.filesBelow patterns d).length + (fs.directoriesBelow patterns d).length) := by
  have hcount : (fs.found patterns d).countP fs.parses = (fs.filesBelow patterns d).length := by
    rw [filesBelow, ← List.countP_eq_length_filter]
    refine List.countP_congr fun p hp => ?_
    rw [parses_of_mem_found hfs hpatterns hd hparse hp]
  rw [totalLine_eq, hcount, length_found]

theorem faultLines_found : (fs.found patterns d).filterMap fs.faultLine? =
    (fs.directoriesBelow patterns d).map directoryLine := by
  rw [directoriesBelow, ← List.filterMap_eq_map, List.filterMap_filter]
  refine List.filterMap_congr fun p hp => ?_
  have hparses := parses_of_mem_found hfs hpatterns hd hparse hp
  cases hdir : fs.isDir p with
  | true => exact faultLine?_of_isDir hfs hdir
  | false =>
    rw [hdir] at hparses
    exact faultLine?_of_parses hparses

/-- The report on what is found is one on how many are files and which are not. -/
theorem reports_found {lib : JsonLibrary} {o : Options} {r : Report}
    (h : Reports lib fs o (fs.found patterns d) r) :
    r.exit = (if fs.directoriesBelow patterns d = [] then 0 else 1) ∧
    ∃ before : List Text, r.stdout = Text.lines (before ++ [] ::
      countLine (fs.filesBelow patterns d).length
        ((fs.filesBelow patterns d).length + (fs.directoriesBelow patterns d).length) ::
      if fs.directoriesBelow patterns d = [] then ["  All clear."]
      else "" :: "  Errors:" :: (fs.directoriesBelow patterns d).map directoryLine) := by
  have hall := forall_parses_iff hfs hpatterns hd hparse
  refine ⟨?_, ?_⟩
  · rw [h.exit]
    simp only [hall]
  · have hstdout := h.stdout
    rw [totalLine_found hfs hpatterns hd hparse, faultLines_found hfs hpatterns hd hparse]
      at hstdout
    simp only [hall] at hstdout
    exact ⟨_, hstdout⟩

end

end FileSystem

/-! ### A run of the checker -/

/-- **A directory in which every file that is found parses fails for the
directories that are found with the files, and for nothing else.** -/
theorem runChecker_directory (lib : JsonLibrary) {fs : FileSystem} {arguments : List Text}
    {o : Options} {d : Text}
    (hfs : fs.isTree) (hread : Options.read arguments = .ok o) (hlevel : o.level.isSome)
    (hpaths : o.paths = [d]) (hd : fs.isDir (.ofText d))
    (hpatterns : ∀ t ∈ o.patternsInForce, t.isNamePattern)
    (hparse : ∀ p content,
      fs.MatchBelow o.patternsInForce (.ofText d) p (.file content) → fs.parses p) :
    ∃ files directories : List Path,
      files.Pairwise Path.Before ∧ directories.Pairwise Path.Before ∧
      (∀ p, p ∈ files ↔ ∃ content,
        fs.MatchBelow o.patternsInForce (.ofText d) p (.file content)) ∧
      (∀ p, p ∈ directories ↔ ∃ es, fs.MatchBelow o.patternsInForce (.ofText d) p (.dir es)) ∧
      if ∀ p ∈ files, fs.shows lib o p then
        ∃ r, runChecker lib fs arguments = .ok r ∧
          r.exit = (if directories = [] then 0 else 1) ∧
          ∃ before : List Text, r.stdout = Text.lines (before ++ [] ::
            countLine files.length (files.length + directories.length) ::
            if directories = [] then ["  All clear."]
            else "" :: "  Errors:" :: directories.map FileSystem.directoryLine)
      else runChecker lib fs arguments = .error .unwritten := by
  have hcollect : collect fs o.patternsInForce (o.paths.map .ofText) =
      .ok (fs.found o.patternsInForce (.ofText d)) := by
    rw [hpaths]
    exact collect_dir hpatterns hd
  have hsorted := FileSystem.pairwise_found hfs hpatterns hd
  have hrun := runReports lib hread hlevel hcollect fun p =>
    FileSystem.parseFile_ne_nulInPath hfs hpatterns hd
  refine ⟨fs.filesBelow o.patternsInForce (.ofText d),
    fs.directoriesBelow o.patternsInForce (.ofText d), hsorted.filter _, hsorted.filter _,
    fun p => FileSystem.mem_filesBelow hfs hpatterns hd,
    fun p => FileSystem.mem_directoriesBelow hfs hpatterns hd, ?_⟩
  simp only [RunReports, FileSystem.forall_shows_iff hfs] at hrun
  split
  · rename_i hshows
    rw [if_pos hshows] at hrun
    obtain ⟨r, hr, hreports⟩ := hrun
    exact ⟨r, hr, FileSystem.reports_found hfs hpatterns hd hparse hreports⟩
  · rename_i hshows
    rw [if_neg hshows] at hrun
    exact hrun

/-- Two files at different depths, one of them hidden; what does not match, and an
empty directory, do not count. -/
theorem runChecker_directory_clear :
    let fs : FileSystem := .ofEntries [] [(["t", "a.cs"], .file [0x78]), (["t", "u", "e"], .dir []),
      (["t", "u", ".b.cst"], .file []), (["t", "notes.txt"], .file [0xFF])]
    let arguments : List Text := ["--pattern", "*.cs", "--pattern=?*.cs?", "t"]
    let o : Options := ⟨["t"], ["*.cs", "?*.cs?"], false, false, false, some .warning⟩
    fs.isTree ∧ Options.read arguments = .ok o ∧ fs.isDir (.ofText "t") ∧
    (∀ t ∈ o.patternsInForce, t.isNamePattern) ∧
    (∀ p content, fs.MatchBelow o.patternsInForce (.ofText "t") p (.file content) → fs.parses p) ∧
    ∃ r, runChecker .standard fs arguments = .ok r ∧ r.exit = 0 ∧ ∃ before : List Text,
      r.stdout = Text.lines
        (before ++ (["", "  Total: 2/2 templates parse", "  All clear."] : List Text)) := by
  intro fs arguments o
  have hfs : fs.isTree := FileSystem.isTree_ofEntries (by decide)
  have hread : Options.read arguments = .ok o := by rfl
  have hd : fs.isDir (.ofText "t") := by decide
  have hpatterns : ∀ t ∈ o.patternsInForce, t.isNamePattern := by decide
  have hfound : fs.found o.patternsInForce (.ofText "t") =
      [⟨[], ["t", "a.cs"]⟩, ⟨[], ["t", "u", ".b.cst"]⟩] :=
    FileSystem.found_eq_of_pairwise hfs hpatterns hd (by decide) (by decide +kernel)
      (by decide +kernel)
  have hfiles : fs.filesBelow o.patternsInForce (.ofText "t") =
      [⟨[], ["t", "a.cs"]⟩, ⟨[], ["t", "u", ".b.cst"]⟩] := by
    rw [FileSystem.filesBelow, hfound]
    decide +kernel
  have hdirectories : fs.directoriesBelow o.patternsInForce (.ofText "t") = [] := by
    rw [FileSystem.directoriesBelow, hfound]
    decide +kernel
  have hparse : ∀ p content, fs.MatchBelow o.patternsInForce (.ofText "t") p (.file content) →
      fs.parses p := by
    intro p content hmatch
    have hp := (FileSystem.mem_filesBelow hfs hpatterns hd).mpr ⟨content, hmatch⟩
    rw [hfiles, List.mem_cons, List.mem_singleton] at hp
    rcases hp with rfl | rfl <;> decide +kernel
  obtain ⟨files, directories, hsorted, hsorted', hmem, hmem', hrun⟩ :=
    runChecker_directory .standard hfs hread rfl rfl hd hpatterns hparse
  rw [if_pos fun p _ => fs.shows_of_not_json .standard o p rfl] at hrun
  obtain ⟨r, hr, hexit, before, hstdout⟩ := hrun
  have hincreasing := FileSystem.pairwise_found hfs hpatterns hd
  obtain rfl : files = fs.filesBelow o.patternsInForce (.ofText "t") :=
    hsorted.eq_of_mem_iff (hincreasing.filter _) fun p =>
      (hmem p).trans (FileSystem.mem_filesBelow hfs hpatterns hd).symm
  obtain rfl : directories = fs.directoriesBelow o.patternsInForce (.ofText "t") :=
    hsorted'.eq_of_mem_iff (hincreasing.filter _) fun p =>
      (hmem' p).trans (FileSystem.mem_directoriesBelow hfs hpatterns hd).symm
  rw [hdirectories] at hexit
  rw [hfiles, hdirectories] at hstdout
  exact ⟨hfs, hread, hd, hpatterns, hparse, r, hr, hexit, before, hstdout⟩

/-- All files that are found parse, and a directory that is found with them fails. -/
theorem runChecker_directory_matched :
    let fs : FileSystem := .ofEntries [] [(["t", "a.cs"], .file [0x78]), (["t", "old.cs"], .dir [])]
    fs.isTree ∧ fs.isDir (.ofText "t") ∧
    (∀ p content, fs.MatchBelow defaultPatterns (.ofText "t") p (.file content) → fs.parses p) ∧
    runChecker .standard fs ["t"] = .ok ⟨1, Text.lines ["", "  Total: 1/2 templates parse", "",
      "  Errors:", "    t/old.cs: [Errno 21] Is a directory: 't/old.cs'"], []⟩ := by
  intro fs
  let o : Options := ⟨["t"], [], false, false, false, some .warning⟩
  have hfs : fs.isTree := FileSystem.isTree_ofEntries (by decide)
  have hread : Options.read ["t"] = .ok o := by rfl
  have hd : fs.isDir (.ofText "t") := by decide
  have hpatterns : ∀ t ∈ o.patternsInForce, t.isNamePattern := by decide
  have hfound : fs.found o.patternsInForce (.ofText "t") =
      [⟨[], ["t", "a.cs"]⟩, ⟨[], ["t", "old.cs"]⟩] :=
    FileSystem.found_eq_of_pairwise hfs hpatterns hd (by decide) (by decide +kernel)
      (by decide +kernel)
  have hfiles : fs.filesBelow o.patternsInForce (.ofText "t") = [⟨[], ["t", "a.cs"]⟩] := by
    rw [FileSystem.filesBelow, hfound]
    decide +kernel
  have hcollect : collect fs o.patternsInForce (o.paths.map .ofText) =
      .ok [⟨[], ["t", "a.cs"]⟩, ⟨[], ["t", "old.cs"]⟩] :=
    (collect_dir hpatterns hd).trans (congrArg Except.ok hfound)
  refine ⟨hfs, hd, fun p content hmatch => ?_, ?_⟩
  · have hp := (FileSystem.mem_filesBelow hfs hpatterns hd).mpr ⟨content, hmatch⟩
    rw [hfiles, List.mem_singleton] at hp
    subst hp
    decide +kernel
  · rw [runChecker, hread]
    change check .standard fs o = _
    rw [check, hcollect]
    exact eq_ok_of_toOption (by decide +kernel)

end ClearSilver
