import NodeLogs.Proofs.Filter.Levels
import NodeLogs.Proofs.Line.Grammar
import NodeLogs.Proofs.Pipeline.InStep

/-! Selections only select. Which lines of a log are in the grammar has nothing to do with the
keywords and levels that are asked for: these say which of their records pass. So a run that
lets less pass reads the same lines, and keeps a part of what another keeps, in the same order. -/

namespace NodeLogs

/-! ### What passes -/

namespace Selection

variable {selection other : Selection}

/-- Does a record pass? -/
def passes (selection : Selection) (r : Record) : Bool :=
  selection.relevance.accepts r.event r.msg && selection.levels.allows r.level

/-- Of the lines in the grammar those are kept whose records pass. -/
theorem keep?_eq (selection : Selection) (line : Bytes) : selection.keep? line =
    ((Line.parts? (Utf8.decodeLossy line)).map Line.Parts.toRecord).filter selection.passes := by
  unfold keep? Line.parse?
  cases Line.parts? (Utf8.decodeLossy line) with
  | none => rfl
  | some p =>
    cases h : selection.relevance.accepts p.toRecord.event p.toRecord.msg <;>
      simp [passes, h, Option.filter]

/-- A selection asks for no more than another: that has all its keywords, and it has no filter of
levels, or all levels of the first, which has one then. -/
structure Within (selection other : Selection) : Prop where
  keywords : ∀ keyword ∈ selection.relevance.keywords, keyword ∈ other.relevance.keywords
  levels : other.levels.isEmpty = true ∨ selection.levels.isEmpty = false ∧
    ∀ level ∈ selection.levels.allowed, level ∈ other.levels.allowed

theorem Within.isMatch (h : selection.Within other) {cs : Text}
    (hmatch : selection.relevance.isMatch cs = true) : other.relevance.isMatch cs = true := by
  obtain ⟨keyword, hmem, hpart⟩ := List.any_eq_true.mp hmatch
  exact List.any_eq_true.mpr ⟨keyword, h.keywords keyword hmem, hpart⟩

theorem Within.accepts (h : selection.Within other) {event : Option Text} {msg : Text}
    (haccepts : selection.relevance.accepts event msg = true) :
    other.relevance.accepts event msg = true := by
  simp only [Relevance.accepts, Bool.or_eq_true, Option.any_eq_true] at haccepts ⊢
  rcases haccepts with ⟨e, he, hmatch⟩ | hmatch
  · exact .inl ⟨e, he, h.isMatch hmatch⟩
  · exact .inr (h.isMatch hmatch)

theorem Within.allows (h : selection.Within other) {level : Text}
    (hallows : selection.levels.allows level = true) : other.levels.allows level = true := by
  rcases h.levels with hall | ⟨hsome, hlevels⟩
  · simp [Levels.allows, hall]
  · rw [Levels.allows_eq hsome, decide_eq_true_iff] at hallows
    simp [Levels.allows, hlevels level hallows]

/-- What passes a selection passes one that asks for more. -/
theorem Within.passes (h : selection.Within other) (r : Record)
    (hpasses : selection.passes r = true) : other.passes r = true := by
  obtain ⟨haccepts, hallows⟩ := Bool.and_eq_true_iff.mp hpasses
  exact Bool.and_eq_true_iff.mpr ⟨h.accepts haccepts, h.allows hallows⟩

/-- With a filter of levels those records pass that would pass without it and are of its levels. -/
theorem passes_levels (relevance : Relevance) {levels : Levels} (hsome : levels.isEmpty = false)
    (r : Record) : passes ⟨relevance, levels⟩ r =
      (decide (r.level ∈ levels.allowed) && passes ⟨relevance, .all⟩ r) := by
  simp [passes, Levels.allows_eq hsome, Bool.and_comm]

/-! ### The same lines -/

/-- Keywords and levels that are given in another order, or more than once, ask for the same. -/
theorem within_of_given {keywords keywords' entries entries' : List Text}
    (hkeywords : ∀ keyword, keyword ∈ keywords ↔ keyword ∈ keywords')
    (hentries : ∀ entry, entry ∈ entries ↔ entry ∈ entries') :
    Within ⟨.ofKeywords keywords, .ofEntries entries⟩
      ⟨.ofKeywords keywords', .ofEntries entries'⟩ where
  keywords keyword := by simp [Line.mem_ofKeywords, hkeywords]
  levels := by
    have hlevels (level : Text) : level ∈ (Levels.ofEntries entries).allowed ↔
        level ∈ (Levels.ofEntries entries').allowed := by
      simp [Levels.mem_allowed_ofEntries, hentries]
    by_cases hall : (Levels.ofEntries entries').allowed = []
    · exact .inl (by simp [Levels.isEmpty, hall])
    · obtain ⟨level, hmem⟩ := List.exists_mem_of_ne_nil _ hall
      refine .inr ⟨?_, fun level => (hlevels level).mp⟩
      have hmem := (hlevels level).mpr hmem
      simpa [Levels.isEmpty] using List.ne_nil_of_mem hmem

/-- Selections that ask for no more than each other keep the same lines. -/
theorem keep?_congr (h : selection.Within other) (h' : other.Within selection) :
    selection.keep? = other.keep? := by
  funext line
  rw [keep?_eq, keep?_eq]
  congr 1
  funext r
  exact Bool.eq_iff_iff.mpr ⟨h.passes r, h'.passes r⟩

/-- Selections that keep the same lines do the same. -/
theorem takeLine_congr (h : selection.keep? = other.keep?) :
    selection.takeLine = other.takeLine := by
  funext file line p
  rw [takeLine, takeLine, h]

theorem takeLines_congr (h : selection.keep? = other.keep?) (file : LogFile) (steps : Nat) :
    selection.takeLines file steps = other.takeLines file steps := by
  induction steps with
  | zero => rfl
  | succ steps ih =>
    funext handle pending p
    rw [takeLines, takeLines, ih, takeLine_congr h]

theorem takeLog_congr (h : selection.keep? = other.keep?) :
    selection.takeLog = other.takeLog := by
  funext file p
  simp only [takeLog, takeLines_congr h]

end Selection

/-! ### Entries that pass -/

namespace Reading

/-- The entries of all lines of logs that are in the grammar. -/
def candidates (readings : List Reading) : List Entry :=
  readings.flatMap fun (file, lines) => lines.filterMap fun line =>
    (Line.parts? (Utf8.decodeLossy line)).map fun p => ⟨p.toRecord, file.path, file.node⟩

/-- What is kept are those whose records pass. -/
theorem entries_eq_filter (selection : Selection) (readings : List Reading) :
    entries selection readings =
      (candidates readings).filter fun e => selection.passes e.record := by
  unfold entries candidates Selection.entries
  rw [List.filter_flatMap]
  refine List.flatMap_congr fun reading _ => ?_
  rw [List.filter_filterMap]
  refine List.filterMap_congr fun line _ => ?_
  rw [Selection.keep?_eq, Option.filter_map, Option.map_map, Option.filter_map]
  rfl

theorem isParsed_of_mem_entries {selection : Selection} {readings : List Reading} {e : Entry}
    (he : e ∈ entries selection readings) : e.IsParsed := by
  obtain ⟨⟨file, lines⟩, -, he⟩ := List.mem_flatMap.mp he
  obtain ⟨line, -, he⟩ := List.mem_filterMap.mp he
  obtain ⟨r, hkeep, rfl⟩ := Option.map_eq_some_iff.mp he
  exact Entry.isParsed_of_keep? hkeep file.path file.node

theorem entries_sublist {selection other : Selection} (h : selection.Within other)
    (readings : List Reading) : (entries selection readings).Sublist (entries other readings) := by
  rw [entries_eq_filter, entries_eq_filter]
  exact List.monotone_filter_right _ fun e => h.passes e.record

theorem entries_levels (relevance : Relevance) {levels : Levels} (hsome : levels.isEmpty = false)
    (readings : List Reading) : entries ⟨relevance, levels⟩ readings =
      (entries ⟨relevance, .all⟩ readings).filter fun e => e.record.level ∈ levels.allowed := by
  simp only [entries_eq_filter, List.filter_filter, Selection.passes_levels relevance hsome]

end Reading

/-- Where entries are left out, lines are. -/
theorem Outlet.fileLines_sublist {es es' : List Entry} (hsub : es.Sublist es')
    (hparsed : ∀ e ∈ es', e.IsParsed) (runName : Text) (x : Outlet) :
    (fileLines (x.rendering runName es)).Sublist (fileLines (x.rendering runName es')) := by
  rw [fileLines_rendering hparsed, fileLines_rendering fun e he => hparsed e (hsub.subset he)]
  exact (hsub.filter _).map _

theorem Outlet.occurs_node (es : List Entry) (n : Nat) (form : Form) :
    Occurs es ⟨.node n, form⟩ ↔ ∃ e ∈ es, e.node = n := by
  simp [Occurs, eq_comm]

theorem Outlet.Occurs.mono {es es' : List Entry} {x : Outlet} (h : x.Occurs es)
    (hsub : es.Sublist es') : x.Occurs es' :=
  h.imp_right fun ⟨e, he, hx⟩ => ⟨e, hsub.subset he, hx⟩

/-! ### What a run leaves -/

/-- A directory can be made, and where it is there was nothing. -/
structure Disk.MakesNew (disk : Disk) (dir : Path) : Prop where
  made : ((Work.makeAllDirs dir).run disk).2 = .ok ()
  absent : ∀ place, ((Work.makeAllDirs dir).run disk).1.LeadsTo dir place →
    disk.root.at? place = none

namespace Pipeline

/-- A run ends well with all lines counted and these entries kept: each outlet that occurs has
a file with the lines of its entries, in order, no other has one, and so there are files of a
node just if something of it is kept. -/
structure Outputs (pl : Pipeline) (run : Run) (disk : Disk) (es : List Entry) : Prop where
  error : ((pl.filterRun run).run disk).2.1.error = none
  counts : ((pl.filterRun run).run disk).2.1.counts =
    ⟨Reading.lineCount (pl.logReadings run disk), es.length⟩
  written : ∀ x : Outlet, x.Occurs es →
    pl.output? run ((pl.filterRun run).run disk).1 x = some (x.rendering run.name es)
  absent : ∀ x : Outlet, ¬ x.Occurs es → pl.output? run ((pl.filterRun run).run disk).1 x = none
  nodes : ∀ n form, (pl.output? run ((pl.filterRun run).run disk).1 ⟨.node n, form⟩).isSome ↔
    ∃ e ∈ es, e.node = n

variable {pl : Pipeline} {run : Run} {disk : Disk}

/-- The directory for outputs is still where it was made, and there was nothing. -/
theorem absent_of_makesNew (hplain : disk.Plain)
    (hnew : disk.MakesNew (run.outputDir pl.outSubdir))
    (hok : ((pl.filterRun run).run disk).2.1.error = none) {dir : Place}
    (hleads : ((pl.filterRun run).run disk).1.LeadsTo (run.outputDir pl.outSubdir) dir) :
    disk.root.at? dir = none := by
  obtain ⟨made, later, w, p, hcourse, -⟩ := exists_course_of_ok hok
  obtain ⟨-, hmade, -⟩ := walk_made hplain hcourse.create
  obtain ⟨dir', hfirst, hdir'⟩ := Writer.makeAllDirs_leadsTo hplain hcourse.create
  obtain ⟨S, hu⟩ := hcourse.updates hmade.cwd
  obtain rfl := hleads.place_eq (hdir'.keeps hmade (hplain.run (pl.filterRun run)) hu)
  exact hnew.absent dir hfirst

/-- On a plain disk, with a new directory for outputs and nothing refused, a run leaves just
what it is to keep, wherever that directory is. -/
theorem filterRun_outputs (hplain : disk.Plain) (hdir : disk.isDir run.path)
    (hnew : disk.MakesNew (run.outputDir pl.outSubdir))
    (hgranted : (pl.filterRun run).Granted disk) :
    pl.Outputs run disk (pl.logEntries run disk) := by
  obtain ⟨-, place, hrun⟩ := hplain.leadsTo_of_isDir hdir
  have hok := filterRun_ok hplain hdir hnew.made hgranted
  have hopens e he := (hgranted e he).opensFile
  obtain ⟨hcounts, dir, hleads, hwritten, hsame⟩ := leaves_of_leadsTo hplain hrun hopens hok
  have houtput (x : Outlet) : pl.output? run ((pl.filterRun run).run disk).1 x =
      ((pl.filterRun run).run disk).1.bytesAt? (dir ++ [x.name]) :=
    hleads.bytesOf?_outlet (hplain.run (pl.filterRun run)) x
  have hfile (x : Outlet) (hx : x.Occurs (pl.logEntries run disk)) :=
    (houtput x).trans (hwritten x hx)
  have habsent (x : Outlet) (hx : ¬ x.Occurs (pl.logEntries run disk)) :
      pl.output? run ((pl.filterRun run).run disk).1 x = none := by
    refine (houtput x).trans ((hsame.outlet hx).trans ?_)
    simp [Disk.bytesAt?, Node.at?_append, absent_of_makesNew hplain hnew hok hleads]
  refine ⟨hok, hcounts, hfile, habsent, fun n form => ?_⟩
  rw [← Outlet.occurs_node _ n form]
  by_cases hx : Outlet.Occurs (pl.logEntries run disk) ⟨.node n, form⟩
  · simp [hfile _ hx, hx]
  · simp [habsent _ hx, hx]

/-! ### Runs with different selections -/

/-- The same pipeline for other lines. -/
def selecting (pl : Pipeline) (selection : Selection) : Pipeline :=
  { pl with selection }

/-- Selections that keep the same lines have a run make the same calls. -/
theorem selecting_filterRun_congr {selection other : Selection}
    (h : selection.keep? = other.keep?) :
    (pl.selecting selection).filterRun run = (pl.selecting other).filterRun run := by
  simp only [filterRun, selecting, outcome, Selection.takeLog_congr h]

/-- The directory for outputs is the same for every selection. -/
theorem selecting_outputs (hplain : disk.Plain) (hdir : disk.isDir run.path)
    (hnew : disk.MakesNew (run.outputDir pl.outSubdir)) {selection : Selection}
    (hgranted : ((pl.selecting selection).filterRun run).Granted disk) :
    (pl.selecting selection).Outputs run disk ((pl.selecting selection).logEntries run disk) :=
  @filterRun_outputs (pl.selecting selection) run disk hplain hdir hnew hgranted

/-- Of the entries of a run another selection leaves a part, in order. -/
theorem logEntries_sublist {selection other : Selection} (h : selection.Within other) :
    ((pl.selecting selection).logEntries run disk).Sublist
      ((pl.selecting other).logEntries run disk) :=
  Reading.entries_sublist h _

/-- How the runs of one directory compare, with whatever keywords and levels, if nothing is
refused to those that are compared. -/
structure Selects (pl : Pipeline) (run : Run) (disk : Disk) : Prop where
  /-- All take in the same lines. -/
  scanned : ∀ selection other,
    ((pl.selecting selection).filterRun run).Granted disk →
    ((pl.selecting other).filterRun run).Granted disk →
    (((pl.selecting selection).filterRun run).run disk).2.1.counts.scanned =
      (((pl.selecting other).filterRun run).run disk).2.1.counts.scanned
  /-- A filter of levels leaves, in order, the entries of its levels, and files of the nodes
  that these are from. -/
  restricted : ∀ relevance levels, levels.isEmpty = false →
    ((pl.selecting ⟨relevance, .all⟩).filterRun run).Granted disk →
    ((pl.selecting ⟨relevance, levels⟩).filterRun run).Granted disk →
    (pl.selecting ⟨relevance, .all⟩).Outputs run disk
      ((pl.selecting ⟨relevance, .all⟩).logEntries run disk) ∧
    (pl.selecting ⟨relevance, levels⟩).Outputs run disk
      (((pl.selecting ⟨relevance, .all⟩).logEntries run disk).filter fun e =>
        e.record.level ∈ levels.allowed)
  /-- A selection that asks for no more keeps no more, and each of its files is a file of the
  other without some of its lines. -/
  fewer : ∀ selection other, selection.Within other →
    ((pl.selecting selection).filterRun run).Granted disk →
    ((pl.selecting other).filterRun run).Granted disk →
    (((pl.selecting selection).filterRun run).run disk).2.1.counts.kept ≤
      (((pl.selecting other).filterRun run).run disk).2.1.counts.kept ∧
    ∀ x bytes, (pl.selecting selection).output? run
        (((pl.selecting selection).filterRun run).run disk).1 x = some bytes →
      ∃ more, (pl.selecting other).output? run
          (((pl.selecting other).filterRun run).run disk).1 x = some more ∧
        (fileLines bytes).Sublist (fileLines more)
  /-- In which order keywords and levels are given, and how often, makes no difference to any
  call that a run makes. -/
  given : ∀ keywords keywords' entries entries',
    (∀ keyword, keyword ∈ keywords ↔ keyword ∈ keywords') →
    (∀ entry, entry ∈ entries ↔ entry ∈ entries') →
    (pl.selecting ⟨.ofKeywords keywords, .ofEntries entries⟩).filterRun run =
      (pl.selecting ⟨.ofKeywords keywords', .ofEntries entries'⟩).filterRun run

/-- On a plain disk, with a new directory for outputs, keywords and levels only select. -/
theorem filterRun_selects (hplain : disk.Plain) (hdir : disk.isDir run.path)
    (hnew : disk.MakesNew (run.outputDir pl.outSubdir)) : pl.Selects run disk where
  scanned selection other hgranted hgranted' := by
    rw [(selecting_outputs hplain hdir hnew hgranted).counts,
      (selecting_outputs hplain hdir hnew hgranted').counts]
    rfl
  restricted relevance levels hsome hgranted hgranted' := by
    refine ⟨selecting_outputs hplain hdir hnew hgranted, ?_⟩
    have houtputs := selecting_outputs hplain hdir hnew hgranted'
    rwa [logEntries, selecting, Reading.entries_levels relevance hsome] at houtputs
  fewer selection other hwithin hgranted hgranted' := by
    have houtputs := selecting_outputs hplain hdir hnew hgranted
    have hmore := selecting_outputs hplain hdir hnew hgranted'
    have hsub := @logEntries_sublist pl run disk _ _ hwithin
    refine ⟨?_, fun x bytes hbytes => ?_⟩
    · rw [houtputs.counts, hmore.counts]
      exact hsub.length_le
    have hx : x.Occurs ((pl.selecting selection).logEntries run disk) := by
      by_contra hnot
      cases hbytes.symm.trans (houtputs.absent x hnot)
    obtain rfl := Option.some.inj (hbytes.symm.trans (houtputs.written x hx))
    exact ⟨_, hmore.written x (hx.mono hsub),
      Outlet.fileLines_sublist hsub (fun _ => Reading.isParsed_of_mem_entries) run.name x⟩
  given keywords keywords' entries entries' hkeywords hentries := by
    have hwithin := Selection.within_of_given hkeywords hentries
    have hwithin' := Selection.within_of_given (fun keyword => (hkeywords keyword).symm)
      fun entry => (hentries entry).symm
    exact selecting_filterRun_congr (Selection.keep?_congr hwithin hwithin')

end Pipeline

namespace OneVote

/-- A second node has a vote as well, which is an error. -/
def graded : Disk where
  root := .dir [(name "r", .dir [
    (name "stdout_0.log", .file 0 (name "2024-01-01T00:00:00Z [t] INFO a:1 Vote\n") .normal),
    (name "stdout_1.log", .file 1 (name "2024-01-01T00:00:01Z [t] ERROR a:1 Vote\n") .normal)])]
  cwd := []

theorem graded_makesNew : graded.MakesNew (run.outputDir pipeline.outSubdir) where
  made := by decide +kernel
  absent place hleads := by
    let made := ((Work.makeAllDirs (run.outputDir pipeline.outSubdir)).run graded).1
    have hgo : made.root.go (made.start (run.outputDir pipeline.outSubdir))
        (run.outputDir pipeline.outSubdir).names = .ok (.found [name "r", name "o"]) := by
      decide +kernel
    obtain rfl : place = [name "r", name "o"] := by simpa using hleads.go_eq.symm.trans hgo
    decide +kernel

end OneVote

namespace Pipeline

open OneVote in
theorem filterRun_selects_graded : pipeline.Selects OneVote.run graded ∧
    (∀ selection ∈ [pipeline.selection, strict.selection],
      ((pipeline.selecting selection).filterRun OneVote.run).Granted graded) ∧
    ((pipeline.filterRun OneVote.run).run graded).2.1.counts = ⟨2, 2⟩ ∧
    ((strict.filterRun OneVote.run).run graded).2.1.counts = ⟨2, 1⟩ ∧
    strict.output? OneVote.run ((strict.filterRun OneVote.run).run graded).1
      ⟨.node 0, .json⟩ = none ∧
    (strict.output? OneVote.run ((strict.filterRun OneVote.run).run graded).1
      ⟨.node 1, .json⟩).isSome :=
  ⟨filterRun_selects (by decide +kernel) (by decide +kernel) graded_makesNew, by decide +kernel,
    by decide +kernel, by decide +kernel, by decide +kernel, by decide +kernel⟩

end Pipeline

end NodeLogs
