/-
# What the checker reports

The report is put together from what the loop over the files has counted and
collected. It comes to what each file is on its own: the trees of the files
that parse, a line for each file, how many parse, and the faults of the others,
all in the order of the files, and a file that is listed twice is reported
twice (`runChecker_reports`). So what is written into one file changes nothing
that is said about the others. Only a tree that cannot be printed as JSON keeps
the report from being made.

Key definitions: `FileSystem.shows`, `FileSystem.treeText?`,
`FileSystem.statusLine?`, `FileSystem.faultLine?`, `Tally.ofFiles`, `Reports`.
Key theorems: `Tally.foldlM_add`, `Tally.reports_ofFiles`, `runChecker_reports`.
-/
import ClearSilver.Check
import ClearSilver.Proofs.Files.Content
import ClearSilver.Proofs.Parse.Sound

namespace ClearSilver

/-! ### What there is to say about a file -/

namespace FileSystem

variable (lib : JsonLibrary) (fs : FileSystem) (o : Options) (p : Path)

def parses : Bool := (parseFile fs .utf8 p).toBool

/-- Why a file does not parse. -/
def reason? : Option Text :=
  match parseFile fs .utf8 p with
  | .ok _ => none
  | .error fault => some fault.reason

/-- What is printed of the tree of a file. -/
def treeText? : Option Text :=
  match parseFile fs .utf8 p with
  | .ok c => o.treeText? lib c
  | .error _ => none

/-- Can what is asked for of the tree of a file be printed, if it has one? -/
def shows : Bool :=
  match parseFile fs .utf8 p with
  | .ok c => o.shows lib c
  | .error _ => true

/-- The line that says whether a file parses. -/
def statusLine? : Option Text :=
  if o.verbose then some ((if fs.parses p then "  OK    " else "  FAIL  ") ++ p.text) else none

/-- The line that says why a file does not parse. -/
def faultLine? : Option Text :=
  (fs.reason? p).map fun reason => "    " ++ p.text ++ ": " ++ reason

theorem isSome_reason? : (fs.reason? p).isSome = !fs.parses p := by
  rw [reason?, parses]
  cases parseFile fs .utf8 p <;> rfl

theorem shows_of_not_json (h : o.json = false) : fs.shows lib o p = true := by
  rw [shows]
  cases parseFile fs .utf8 p with
  | ok c => exact o.shows_of_not_json h lib c
  | error fault => rfl

end FileSystem

/-! ### The loop -/

theorem Verdict.path_of (fs : FileSystem) (p : Path) : (Verdict.of fs p).path = p := by
  rw [Verdict.of]
  cases fs.readText .utf8 p <;> rfl

namespace Tally

variable {lib : JsonLibrary} {fs : FileSystem} {o : Options} {p : Path} {files : List Path}

/-- Two tallies, the first files before the second. -/
def plus (t u : Tally) : Tally :=
  ⟨t.parsed + u.parsed, t.errors ++ u.errors, t.printed ++ u.printed, t.logged ++ u.logged⟩

theorem plus_assoc (t u v : Tally) : (t.plus u).plus v = t.plus (u.plus v) := by
  simp only [plus, Nat.add_assoc, List.append_assoc]

theorem start_plus (t : Tally) : start.plus t = t := by
  simp only [plus, start, Nat.zero_add, List.nil_append]

/-- What some files come to, each on its own. -/
def ofFiles (lib : JsonLibrary) (fs : FileSystem) (o : Options) (files : List Path) : Tally where
  parsed := files.countP fs.parses
  errors := files.filterMap fun p => (fs.reason? p).map (p, ·)
  printed := files.filterMap (fs.treeText? lib o)
  logged := files.flatMap fun p => (Verdict.of fs p).logLines

theorem ofFiles_nil (t : Tally) : t.plus (ofFiles lib fs o []) = t := by
  simp only [plus, ofFiles, List.countP_nil, List.filterMap_nil, List.flatMap_nil, Nat.add_zero,
    List.append_nil]

theorem ofFiles_cons (p : Path) (files : List Path) :
    ofFiles lib fs o (p :: files) = (ofFiles lib fs o [p]).plus (ofFiles lib fs o files) := by
  have hcons : p :: files = [p] ++ files := rfl
  rw [hcons]
  simp only [plus, ofFiles, List.countP_append, List.filterMap_append, List.flatMap_append]

/-- One more file adds what it comes to on its own, if its tree can be printed. -/
theorem add_of (h : parseFile fs .utf8 p ≠ .error .nulInPath) (t : Tally) :
    t.add lib o (Verdict.of fs p) =
      if fs.shows lib o p then .ok (t.plus (ofFiles lib fs o [p])) else .error .unwritten := by
  cases hp : parseFile fs .utf8 p with
  | ok c =>
    have hshows : fs.shows lib o p = o.shows lib c := by rw [FileSystem.shows, hp]
    simp only [add, Verdict.outcome_of, hp, hshows]
    cases hshown : o.treeText? lib c <;>
      simp [plus, ofFiles, FileSystem.parses, FileSystem.reason?, FileSystem.treeText?, hp, hshown,
        Except.toBool]
  | error fault =>
    have hfault : fault ≠ .nulInPath := fun hsame => h (hp.trans (congrArg Except.error hsame))
    have hadd : t.add lib o (Verdict.of fs p) = .ok ⟨t.parsed, t.errors ++ [(p, fault.reason)],
        t.printed, t.logged ++ (Verdict.of fs p).logLines⟩ := by
      rw [add, Verdict.outcome_of, Verdict.path_of, hp]
      cases fault with
      | nulInPath => exact absurd rfl hfault
      | _ => rfl
    have hshows : fs.shows lib o p = true := by rw [FileSystem.shows, hp]
    rw [hadd, if_pos hshows]
    simp [plus, ofFiles, FileSystem.parses, FileSystem.reason?, FileSystem.treeText?, hp,
      Except.toBool]

/-- The loop comes to what the files come to, if all their trees can be printed. -/
theorem foldlM_add (h : ∀ p ∈ files, parseFile fs .utf8 p ≠ .error .nulInPath) (t : Tally) :
    files.foldlM (fun t p => t.add lib o (Verdict.of fs p)) t =
      if ∀ p ∈ files, fs.shows lib o p then .ok (t.plus (ofFiles lib fs o files))
      else .error .unwritten := by
  induction files generalizing t with
  | nil => exact congrArg Except.ok (ofFiles_nil t).symm
  | cons p files ih =>
    rw [List.forall_mem_cons] at h
    rw [List.foldlM_cons, add_of h.1]
    simp only [List.forall_mem_cons]
    cases hp : fs.shows lib o p with
    | false => simp [Bind.bind, Except.bind]
    | true =>
      rw [if_pos rfl, ofFiles_cons p files, ← plus_assoc]
      simp only [true_and]
      exact ih h.2 _

/-- The errors are those of the files that do not parse. -/
theorem mem_errors {e : Path × Text} :
    e ∈ (ofFiles lib fs o files).errors ↔ e.1 ∈ files ∧ fs.reason? e.1 = some e.2 := by
  simp only [ofFiles, List.mem_filterMap, Option.map_eq_some_iff]
  constructor
  · rintro ⟨p, hp, reason, hreason, rfl⟩
    exact ⟨hp, hreason⟩
  · rintro ⟨hp, hreason⟩
    exact ⟨e.1, hp, e.2, hreason, rfl⟩

theorem isEmpty_errors : (ofFiles lib fs o files).errors.isEmpty = files.all fs.parses := by
  rw [Bool.eq_iff_iff, List.isEmpty_iff, List.eq_nil_iff_forall_not_mem, List.all_eq_true]
  simp only [mem_errors, not_and]
  constructor
  · intro h p hp
    have hnone : fs.reason? p = none := Option.eq_none_iff_forall_ne_some.mpr fun reason =>
      h (p, reason) hp
    simpa [hnone] using fs.isSome_reason? p
  · intro h e hp hreason
    have hsome := fs.isSome_reason? e.1
    rw [hreason, h e.1 hp] at hsome
    cases hsome

/-- A file that is listed twice fails both times, or neither time. -/
theorem failed_ofFiles (hp : p ∈ files) : (ofFiles lib fs o files).failed p = !fs.parses p := by
  rw [← fs.isSome_reason?, Bool.eq_iff_iff, failed, List.any_eq_true, Option.isSome_iff_exists]
  simp only [mem_errors, decide_eq_true_eq]
  constructor
  · rintro ⟨e, ⟨-, hreason⟩, rfl⟩
    exact ⟨e.2, hreason⟩
  · rintro ⟨reason, hreason⟩
    exact ⟨(p, reason), ⟨hp, hreason⟩, rfl⟩

theorem parsed_add_errors :
    (ofFiles lib fs o files).parsed + (ofFiles lib fs o files).errors.length = files.length := by
  have hfailing : (ofFiles lib fs o files).errors.length =
      files.countP (fun p => !fs.parses p) := by
    simp only [ofFiles, List.length_filterMap_eq_countP, Option.isSome_map, fs.isSome_reason?]
  rw [hfailing, List.length_eq_countP_add_countP fs.parses]
  simp only [ofFiles, Bool.not_eq_true, Bool.decide_eq_false]

end Tally

/-! ### The report -/

/-- The line with how many files parse. -/
def totalLine (fs : FileSystem) (files : List Path) : Text :=
  "  Total: " ++ decimal (files.countP fs.parses) ++ "/" ++ decimal files.length ++
    " templates parse"

/-- The report says of each file what it is on its own, in the order of the
files. -/
structure Reports (lib : JsonLibrary) (fs : FileSystem) (o : Options) (files : List Path)
    (r : Report) : Prop where
  exit : r.exit = if ∀ p ∈ files, fs.parses p then 0 else 1
  stdout : r.stdout = Text.lines
    (files.filterMap (fs.treeText? lib o) ++ files.filterMap (fs.statusLine? o) ++
      [] :: totalLine fs files ::
      if ∀ p ∈ files, fs.parses p then ["  All clear."]
      else "" :: "  Errors:" :: files.filterMap fs.faultLine?)

namespace Tally

variable {lib : JsonLibrary} {fs : FileSystem} {o : Options} {files : List Path}

theorem statusLines_ofFiles :
    (if o.verbose then files.map (ofFiles lib fs o files).statusLine else []) =
      files.filterMap (fs.statusLine? o) := by
  cases hverbose : o.verbose with
  | false => simp [FileSystem.statusLine?, hverbose]
  | true =>
    have hline : fs.statusLine? o = fun p =>
        some ((if fs.parses p then "  OK    " else "  FAIL  ") ++ p.text) := by
      funext p
      rw [FileSystem.statusLine?, if_pos hverbose]
    rw [if_pos rfl, hline, List.filterMap_eq_map']
    refine List.map_congr_left fun p hp => ?_
    rw [statusLine, failed_ofFiles hp]
    cases fs.parses p <;> rfl

theorem errorLine_eq (p : Path) (reason : Text) :
    errorLine (p, reason) = "    " ++ p.text ++ ": " ++ reason := rfl

theorem faultLines_ofFiles :
    (ofFiles lib fs o files).errors.map errorLine = files.filterMap fs.faultLine? := by
  have hline : fs.faultLine? = fun p =>
      (fs.reason? p).map fun reason => "    " ++ p.text ++ ": " ++ reason := rfl
  simp only [ofFiles, hline, List.map_filterMap, Option.map_map, Function.comp_def,
    errorLine_eq]

theorem totalLine_ofFiles :
    (ofFiles lib fs o files).totalLine = ClearSilver.totalLine fs files := by
  have hparsed : (ofFiles lib fs o files).parsed = files.countP fs.parses := rfl
  unfold totalLine ClearSilver.totalLine
  rw [parsed_add_errors, hparsed]

theorem reports_ofFiles : Reports lib fs o files ((ofFiles lib fs o files).report o files) := by
  have hall : (ofFiles lib fs o files).errors.isEmpty = decide (∀ p ∈ files, fs.parses p) := by
    rw [isEmpty_errors, Bool.eq_iff_iff, List.all_eq_true, decide_eq_true_iff]
  have hprinted : (ofFiles lib fs o files).printed = files.filterMap (fs.treeText? lib o) := rfl
  constructor
  · simp only [report, hall, decide_eq_true_eq]
  · simp only [report, hprinted, statusLines_ofFiles, totalLine_ofFiles, errorSection, hall,
      decide_eq_true_eq, faultLines_ofFiles]

end Tally

/-! ### A run of the checker -/

/-- A run reports on some files, unless one of their trees cannot be printed. -/
def RunReports (lib : JsonLibrary) (fs : FileSystem) (arguments : List Text) (o : Options)
    (files : List Path) : Prop :=
  if ∀ p ∈ files, fs.shows lib o p then
    ∃ r, runChecker lib fs arguments = .ok r ∧ Reports lib fs o files r
  else runChecker lib fs arguments = .error .unwritten

section
variable (lib : JsonLibrary) {fs : FileSystem} {arguments : List Text} {o : Options}
  {files : List Path}

/-- The checker reports on the files that are found. -/
theorem runReports (hread : Options.read arguments = .ok o) (hlevel : o.level.isSome)
    (hfiles : collect fs o.patternsInForce (o.paths.map .ofText) = .ok files)
    (hnul : ∀ p ∈ files, parseFile fs .utf8 p ≠ .error .nulInPath) :
    RunReports lib fs arguments o files := by
  have hsome : o.level.isNone = false := by
    cases hl : o.level with
    | none => rw [hl] at hlevel; cases hlevel
    | some level => rfl
  have hrun : runChecker lib fs arguments = (do
      let t ← files.foldlM (fun t p => t.add lib o (Verdict.of fs p)) Tally.start
      return t.report o files) := by
    simp only [runChecker, hread, check, hsome, hfiles]
    rfl
  rw [Tally.foldlM_add hnul, Tally.start_plus] at hrun
  unfold RunReports
  split
  · rename_i hshows
    rw [if_pos hshows] at hrun
    exact ⟨_, hrun, Tally.reports_ofFiles⟩
  · rename_i hshows
    rw [if_neg hshows] at hrun
    exact hrun

/-- **The checker reports each file on its own**, and what is written into a
file changes nothing that is said of paths that do not lead to it. -/
theorem runChecker_reports (hread : Options.read arguments = .ok o) (hlevel : o.level.isSome)
    (hfiles : collect fs o.patternsInForce (o.paths.map .ofText) = .ok files)
    (hnul : ∀ p ∈ files, parseFile fs .utf8 p ≠ .error .nulInPath) :
    RunReports lib fs arguments o files ∧
    ∀ (place : List Text) (content : List UInt8),
      RunReports lib (fs.write place content) arguments o files ∧
      ∀ p, fs.place? p ≠ .ok place →
        (fs.write place content).shows lib o p = fs.shows lib o p ∧
        (fs.write place content).treeText? lib o p = fs.treeText? lib o p ∧
        (fs.write place content).statusLine? o p = fs.statusLine? o p ∧
        (fs.write place content).faultLine? p = fs.faultLine? p := by
  refine ⟨runReports lib hread hlevel hfiles hnul, fun place content => ⟨?_, fun p hp => ?_⟩⟩
  · refine runReports lib hread hlevel ((collect_write fs place content _ _).trans hfiles) ?_
    intro p hp
    rw [ne_eq, parseFile_eq_nulInPath, ← parseFile_eq_nulInPath fs]
    exact hnul p hp
  · have hparse := parseFile_write hp content .utf8
    have hparses : (fs.write place content).parses p = fs.parses p := by
      rw [FileSystem.parses, FileSystem.parses, hparse]
    have hreason : (fs.write place content).reason? p = fs.reason? p := by
      rw [FileSystem.reason?, FileSystem.reason?, hparse]
    refine ⟨?_, ?_, ?_, ?_⟩
    · rw [FileSystem.shows, FileSystem.shows, hparse]
    · rw [FileSystem.treeText?, FileSystem.treeText?, hparse]
    · rw [FileSystem.statusLine?, FileSystem.statusLine?, hparses]
    · rw [FileSystem.faultLine?, FileSystem.faultLine?, hreason]

end

/-- Two files that parse, one of them listed twice, and one that does not; the
line of that one stays when another is written. -/
theorem runChecker_reports_twice :
    let fs : FileSystem := ⟨.dir [("a.cs", .file [0x78]), ("b.cs", .file [0x3C, 0x3F, 0x63, 0x73,
      0x20]), ("c.cs", .file [])], []⟩
    let arguments : List Text := ["-v", "--tree", "a.cs", "b.cs", "c.cs", "a.cs"]
    let o : Options := ⟨["a.cs", "b.cs", "c.cs", "a.cs"], [], true, false, true, some .warning⟩
    let files : List Path := [⟨[], ["a.cs"]⟩, ⟨[], ["b.cs"]⟩, ⟨[], ["c.cs"]⟩, ⟨[], ["a.cs"]⟩]
    Options.read arguments = .ok o ∧
    collect fs o.patternsInForce (o.paths.map .ofText) = .ok files ∧
    (∀ p ∈ files, parseFile fs .utf8 p ≠ .error .nulInPath) ∧
    (∃ r, runChecker .standard fs arguments = .ok r ∧ Reports .standard fs o files r ∧
      r.exit = 1) ∧
    (fs.write ["a.cs"] []).faultLine? ⟨[], ["b.cs"]⟩ = fs.faultLine? ⟨[], ["b.cs"]⟩ := by
  intro fs arguments o files
  have hread : Options.read arguments = .ok o := by rfl
  have hfiles : collect fs o.patternsInForce (o.paths.map .ofText) = .ok files := by rfl
  have hnul : ∀ p ∈ files, parseFile fs .utf8 p ≠ .error .nulInPath := by
    simp only [ne_eq, parseFile_eq_nulInPath]
    decide +kernel
  have hfails : ¬ ∀ p ∈ files, fs.parses p := by decide +kernel
  have helsewhere : fs.place? ⟨[], ["b.cs"]⟩ ≠ .ok ["a.cs"] := by
    intro h
    cases h
  obtain ⟨hrun, hwrite⟩ := runChecker_reports .standard hread rfl hfiles hnul
  rw [RunReports, if_pos fun p _ => fs.shows_of_not_json .standard o p rfl] at hrun
  obtain ⟨r, hr, hreports⟩ := hrun
  refine ⟨hread, hfiles, hnul, ⟨r, hr, hreports, ?_⟩, ?_⟩
  · rw [hreports.exit, if_neg hfails]
  · exact ((hwrite ["a.cs"] []).2 _ helsewhere).2.2.2

/-- The file that is listed parses, but an attached `--` leaves no level to log
from, and there is no report. -/
theorem runChecker_no_level :
    let fs : FileSystem := ⟨.dir [("a.cs", .file [0x78])], []⟩
    (Options.read ["--log-level=--", "a.cs"]).toBool = true ∧
    collect fs defaultPatterns [.ofText "a.cs"] = .ok [.ofText "a.cs"] ∧
    fs.parses (.ofText "a.cs") = true ∧
    runChecker .standard fs ["--log-level=--", "a.cs"] = .error .noLevel := by
  refine ⟨?_, ?_, ?_, ?_⟩
  · decide +kernel
  · rfl
  · decide +kernel
  · rfl

end ClearSilver
