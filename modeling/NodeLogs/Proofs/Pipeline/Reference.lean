import NodeLogs.Proofs.Output.Locations
import NodeLogs.Proofs.Pipeline.Bounds
import NodeLogs.Proofs.Pipeline.Run

/-! What a run is to do, said without its walk and its sinks. The logs are those that
are found before it begins, each with the lines that can be read of it; of these come
the entries, and each outlet that occurs has the lines of its entries. On a plain disk,
where output goes below the run and nothing is refused, a run does just that. -/

namespace NodeLogs

/-! ### Calls that leave logs alone -/

namespace Disk

variable {disk : Disk}

/-- A call that makes only output files, and writes only to such, leaves every log as it is. -/
theorem answer_sameLogs (hcwd : disk.HasCwd) {c : Call}
    (hcreate : ∀ p, c = .create p → ∀ h, (disk.create p).2 = .ok h → Outlet.At h.place)
    (hwrite : ∀ h bs, c = .write h bs → Outlet.At h.place) :
    SameFiles (fun place => isLogPlace place) disk (disk.answer c).1 := by
  cases c with
  | makeDir p => exact fun place _ _ _ _ => makeDir_others hcwd p (by simp) place
  | create p =>
    refine (answer_updates hcwd (.create p)).sameFiles fun place hlog hmem => ?_
    cases hok : (disk.create p).2 with
    | error e => simp [touched, hok] at hmem
    | ok h =>
      obtain rfl : place = h.place := by simpa [touched, hok] using hmem
      exact (hcreate p rfl h hok).not_log hlog
  | write h bs =>
    refine (answer_updates hcwd (.write h bs)).sameFiles fun place hlog hmem => ?_
    obtain rfl := List.mem_singleton.mp hmem
    exact (hwrite h bs rfl).not_log hlog
  | read h limit =>
    exact (answer_updates hcwd (.read h limit)).sameFiles fun _ _ hmem => by cases hmem
  | isDir | isFile | list | openRead => exact .refl _ _

/-- On plain disks with the same logs, a run makes output files only and writes only to those. -/
def outputBounds (disk : Disk) (dir : Path) : Bounds dir where
  ok later := later.Plain ∧ disk.SameLogs later
  call
    | .create p => ∃ x : Outlet, p = x.path dir
    | .write h _ => Outlet.At h.place
    | _ => True
  own := Outlet.At
  logs _ := True
  within _ := True
  keeps := by
    rintro later c ⟨hplain, hsame⟩ hc
    refine ⟨hplain.answer c, hsame.trans ⟨?_, _, answer_updates hplain.cwd c⟩⟩
    refine answer_sameLogs hplain.cwd ?_ ?_
    · rintro p rfl h hok
      obtain ⟨x, rfl⟩ := hc
      obtain ⟨place, -, hplace⟩ := hplain.create_output hok
      exact ⟨place, x, hplace⟩
    · rintro h bs rfl
      exact hc
  dirs := by
    refine Work.Stays.mono (Work.Stays.onDisks (Work.makeAllDirs_onlyDirs dir) fun _ _ => trivial)
      ?_ fun _ => id
    rintro c ⟨p, rfl | rfl⟩ <;> trivial
  create x := ⟨x, rfl⟩
  created := by
    rintro later h x ⟨hplain, -⟩ hok
    obtain ⟨place, -, hplace⟩ := hplain.create_output hok
    exact ⟨place, x, hplace⟩
  write _ h := h
  isDir _ := trivial
  isFile _ := trivial
  list _ := trivial
  below _ _ _ _ := trivial
  openRead _ := trivial
  opened _ _ _ := trivial
  read _ _ := trivial

/-- A log and its lines, if it can be opened. -/
def reading? (disk : Disk) (file : LogFile) : Option Reading :=
  (disk.openRead file.path).toOption.map fun r => (file, disk.linesAt r.1.place)

/-- The logs among files that can be opened, as they are opened. -/
def openAll (disk : Disk) (files : List LogFile) : List (Path × Handle) :=
  files.flatMap fun file =>
    ((disk.openRead file.path).toOption.map fun r => (file.path, r.1)).toList

theorem mem_openAll {disk : Disk} {files : List LogFile} {f : Path × Handle} :
    f ∈ disk.openAll files ↔
      ∃ file ∈ files, ∃ size, disk.openRead file.path = .ok (f.2, size) ∧ file.path = f.1 := by
  obtain ⟨p, h⟩ := f
  unfold openAll
  rw [List.mem_flatMap]
  refine exists_congr fun file => and_congr_right fun _ => ?_
  cases disk.openRead file.path with
  | error e => simp [Except.toOption]
  | ok r =>
    obtain ⟨h', size⟩ := r
    simp [Except.toOption, and_comm, eq_comm]

theorem readings_openAll (disk : Disk) {files : List LogFile}
    (hfiles : ∀ file ∈ files, LogFile.ofPath? file.path = some file) :
    disk.readings (disk.openAll files) = files.filterMap disk.reading? := by
  unfold openAll
  induction files with
  | nil => rfl
  | cons file files ih =>
    obtain ⟨hfile, hrest⟩ := List.forall_mem_cons.mp hfiles
    rw [List.flatMap_cons, readings_append, ih hrest, List.filterMap_cons, reading?]
    cases (disk.openRead file.path).toOption with
    | none => rfl
    | some r => simp [readings, hfile]

end Disk

/-- In a directory where the files of the outlets that occur have changed, those of others have
not. -/
theorem Disk.SameFiles.outlet {disk later : Disk} {es : List Entry} {dir : Place}
    (h : SameFiles (fun place => ∀ x : Outlet, x.Occurs es → place ≠ dir ++ [x.name]) disk later)
    {x : Outlet} (hx : ¬ x.Occurs es) :
    later.bytesAt? (dir ++ [x.name]) = disk.bytesAt? (dir ++ [x.name]) := by
  refine h.bytesAt? fun y hy heq => hx ?_
  rwa [Outlet.name_injective (List.cons.inj (List.append_inj_right' heq rfl)).1]

/-- Files can be opened in a directory only if its path leads to one. -/
theorem Writer.createIn_leadsTo {disk made : Disk} (hplain : disk.Plain) {dir : Path}
    {runName : Text} {w : Writer} (hcreate : (createIn dir runName).run disk = (made, .ok w)) :
    ∃ place, disk.LeadsTo dir place ∧ made.LeadsTo dir place := by
  have hpath := Outlet.path_all dir .json
  cases hopen : (disk.create (Outlet.path dir ⟨.all, .json⟩)).2 with
  | error e => simp [createIn, SinkPair.create, Sink.create, hpath, hopen] at hcreate
  | ok h =>
    obtain ⟨place, hleads, -⟩ := hplain.create_output hopen
    have hlater := hleads.keeps hplain (hplain.run (createIn dir runName))
      ((createIn dir runName).run_updates hplain.cwd)
    rw [hcreate] at hlater
    exact ⟨place, hleads, hlater⟩

/-- A writer can be made only when its path leads to a directory, once that has been made. -/
theorem Writer.makeAllDirs_leadsTo {disk made : Disk} (hplain : disk.Plain) {dir : Path}
    {runName : Text} {w : Writer} (hcreate : (create dir runName).run disk = (made, .ok w)) :
    ∃ place, ((Work.makeAllDirs dir).run disk).1.LeadsTo dir place ∧ made.LeadsTo dir place := by
  rw [create_eq, Work.run_bind] at hcreate
  have hplain' := hplain.run (Work.makeAllDirs dir)
  generalize (Work.makeAllDirs dir).run disk = result at hcreate hplain' ⊢
  obtain ⟨disk', e | u⟩ := result
  · cases hcreate
  · exact createIn_leadsTo hplain' hcreate

theorem Writer.create_leadsTo {disk made : Disk} (hplain : disk.Plain) {dir : Path} {runName : Text}
    {w : Writer} (hcreate : (create dir runName).run disk = (made, .ok w)) :
    ∃ place, made.LeadsTo dir place := by
  obtain ⟨place, -, hleads⟩ := makeAllDirs_leadsTo hplain hcreate
  exact ⟨place, hleads⟩

namespace Walk

variable {selection : Selection}

/-- Visits that take logs in make output files only. -/
theorem steady_takeLogs (selection : Selection) (dir : Path) :
    Steady (takeLogs selection) fun disk p => disk.Plain ∧ p.writer.KeepsTo dir Outlet.At where
  plain _ _ h := h.1
  visit disk p file h _ := by
    let b := disk.outputBounds dir
    obtain ⟨hkeeps, hplain, hsame⟩ := (b.admits_takeLog h.2 selection file trivial).run
      (fun _ _ => b.keeps) ⟨h.1, .refl _⟩
    exact ⟨⟨hplain, hkeeps⟩, hsame.files⟩

/-- Where nothing is refused, output does not fail. -/
theorem visitAll_ok {files : List LogFile} {disk : Disk} {p : Progress}
    (hgranted : (visitAll (takeLogs selection) files p).Granted disk) (hgoing : p.failure = none) :
    ((visitAll (takeLogs selection) files p).run disk).2.failure = none := by
  induction files generalizing disk p with
  | nil => exact hgoing
  | cons file files ih =>
    have hover := Progress.isOver_of_going hgoing
    have hstep : visitAll (takeLogs selection) (file :: files) p =
        selection.takeLog file p >>= visitAll (takeLogs selection) files := by
      simp [visitAll, hover]
    rw [hstep] at hgranted ⊢
    obtain ⟨hfirst, hrest⟩ := Work.granted_bind.mp hgranted
    rw [Work.run_bind]
    exact ih hrest (Selection.takeLog_ok hfirst hgoing)

/-- Unless output fails, the logs that can be opened are opened one after another. -/
theorem visitAll_takeLogs {inv : Disk → Progress → Prop} (hv : Steady (takeLogs selection) inv)
    {first : Disk} (files : List LogFile)
    (hopen : ∀ file ∈ files, ∀ later, first.SameLogs later → later.Plain →
      later.openRead file.path = first.openRead file.path)
    {disk : Disk} {p : Progress} (hinv : inv disk p) (hsame : first.SameLogs disk)
    (hok : ((visitAll (takeLogs selection) files p).run disk).2.failure = none) :
    (visitAll (takeLogs selection) files p).opened disk = first.openAll files := by
  unfold Disk.openAll
  induction files generalizing disk p with
  | nil => rfl
  | cons file files ih =>
    have hover : p.isOver = false := by
      refine Bool.eq_false_iff.mpr fun hover => ?_
      rw [visitAll_over hover] at hok
      simp only [Progress.isOver, Work.run_pure] at hover hok
      simp [hok] at hover
    have hstep : visitAll (takeLogs selection) (file :: files) p =
        selection.takeLog file p >>= visitAll (takeLogs selection) files := by
      simp [visitAll, hover]
    obtain ⟨hinv', hfiles⟩ := hv.visit disk p file hinv hover
    have hsame' : disk.SameLogs ((selection.takeLog file p).run disk).1 :=
      ⟨hfiles, _, (selection.takeLog file p).run_updates (hv.plain disk p hinv).cwd⟩
    rw [hstep, Work.run_bind] at hok
    have hopened := ih (fun file hfile => hopen file (List.mem_cons_of_mem _ hfile))
      hinv' (hsame.trans hsame') hok
    rw [hstep, Work.opened_bind, hopened, List.flatMap_cons, Selection.takeLog_opened,
      hopen file List.mem_cons_self disk hsame (hv.plain disk p hinv)]

end Walk

namespace Pipeline

variable (pl : Pipeline) (run : Run) (disk : Disk)

/-- The logs of a run as they are found before it begins. -/
def logFiles : List LogFile :=
  ((NodeLogs.logFiles pl.reach run.path).run disk).2

/-- Those that can be opened, with their lines. -/
def logReadings : List Reading :=
  (pl.logFiles run disk).filterMap disk.reading?

/-- The entries that these come to. -/
def logEntries : List Entry :=
  Reading.entries pl.selection (pl.logReadings run disk)

/-- A run does what it is to do: no failure, all lines counted, in the file of every
outlet that occurs just the lines of its entries, and no other file made or changed. -/
structure Follows : Prop where
  error : ((pl.filterRun run).run disk).2.1.error = none
  counts : ((pl.filterRun run).run disk).2.1.counts =
    ⟨Reading.lineCount (pl.logReadings run disk), (pl.logEntries run disk).length⟩
  written : ∀ x : Outlet, x.Occurs (pl.logEntries run disk) →
    ((pl.filterRun run).run disk).1.bytesOf? (x.path (run.outputDir pl.outSubdir)) =
      some (x.rendering run.name (pl.logEntries run disk))
  others : ∀ x : Outlet, ¬ x.Occurs (pl.logEntries run disk) →
    ((pl.filterRun run).run disk).1.bytesOf? (x.path (run.outputDir pl.outSubdir)) =
      disk.bytesOf? (x.path (run.outputDir pl.outSubdir))
  elsewhere : Disk.SameFiles (fun place => ∀ x : Outlet, x.Occurs (pl.logEntries run disk) →
    ((pl.filterRun run).run disk).1.locate true (x.path (run.outputDir pl.outSubdir)) ≠
      .ok (.found place)) disk ((pl.filterRun run).run disk).1

variable {pl run disk}

section

variable (hplain : disk.Plain)
include hplain

/-- A run leaves every log as it is. -/
theorem filterRun_sameLogs : disk.SameLogs ((pl.filterRun run).run disk).1 := by
  let b := disk.outputBounds (run.outputDir pl.outSubdir)
  exact ((pl.filterRun_stays run b trivial).run (fun _ _ => b.keeps) ⟨hplain, .refl _⟩).2.2

/-- What a run opens for writing are files of outlets in its output directory. -/
theorem filterRun_created {f : Path × Handle} (hf : f ∈ (pl.filterRun run).created disk) :
    ∃ x : Outlet, f.1 = x.path (run.outputDir pl.outSubdir) ∧ ∃ dir,
      ((pl.filterRun run).run disk).1.LeadsTo (run.outputDir pl.outSubdir) dir ∧
      f.2.place = dir ++ [x.name] := by
  let b := disk.outputBounds (run.outputDir pl.outSubdir)
  obtain ⟨later, hmem, hok⟩ := Work.mem_created.mp hf
  obtain ⟨⟨hlater, -⟩, x, hx⟩ :=
    (pl.filterRun_stays run b trivial).mem_history (fun _ _ => b.keeps) ⟨hplain, .refl _⟩ _ hmem
  rw [hx] at hok
  obtain ⟨dir, hdir, hplace⟩ := hlater.create_output hok
  obtain ⟨S, hu⟩ := Work.updates_of_mem_history hplain.cwd hmem
  exact ⟨x, hx, dir, hdir.keeps hlater (hplain.run _) hu, hplace⟩

/-- A run that opens nothing but files for writing opens files of its own. -/
theorem filterRun_opensOwn (hfiles : ∀ e ∈ (pl.filterRun run).history disk, e.1.OpensFile e.2) :
    (pl.filterRun run).OpensOwn disk fun _ place =>
      ∀ f ∈ (pl.filterRun run).created disk, f.2.place ≠ place where
  files := hfiles
  apart e he f hf hplace := by
    obtain ⟨x, hx, dir, -, hxplace⟩ := filterRun_created hplain he
    obtain ⟨y, hy, dir', -, hyplace⟩ := filterRun_created hplain hf
    rw [hxplace, hyplace] at hplace
    rw [hx, hy, Outlet.name_injective (List.cons.inj (List.append_inj_right' hplace rfl)).1]
  free e he hnot := hnot e he rfl

section Walk

variable {place : Place} (hrun : disk.LeadsTo run.path place)
include hrun

/-- The logs of a run lie below where its path leads. -/
theorem mem_logFiles {file : LogFile} (hfile : file ∈ pl.logFiles run disk) :
    ∃ es, disk.root.at? place = some (.dir es) ∧ file ∈ logsAt pl.reach run.path (.dir es) := by
  obtain ⟨es, hes⟩ := hrun.hasDir
  refine ⟨es, hes, ?_⟩
  by_cases hne : run.path.bytes = []
  · rw [logFiles, logFiles_empty hplain hne] at hfile
    cases hfile
  · rwa [logFiles, logFiles_run hplain pl.reach (hrun.locate_eq hplain hne true) hes] at hfile

/-- They can be opened at places of logs only. -/
theorem isLogPlace_of_openAll {f : Path × Handle} (hf : f ∈ disk.openAll (pl.logFiles run disk)) :
    isLogPlace f.2.place := by
  obtain ⟨file, hfile, size, hopen, -⟩ := Disk.mem_openAll.mp hf
  obtain ⟨es, hes, hfile⟩ := mem_logFiles hplain hrun hfile
  obtain ⟨below, hpath, -, ⟨born, bytes, access, hat⟩, hne, hlog⟩ :=
    exists_of_mem_logsAt (Node.isPlain_at? hplain.tree hes) rfl hfile
  have hat : disk.root.at? (place ++ below) = some (.file born bytes access) := by
    rw [Node.at?_append, hes]
    exact hat
  have hloc := Disk.openRead_place hopen
  rw [hpath, hrun.locate_below hplain hne hat, Except.ok.injEq, Spot.found.injEq] at hloc
  rwa [← hloc, isLogPlace_append place hne]

/-- The walk of a run, on a disk with the same logs, comes to visiting those. -/
theorem walk_visits {made : Disk} {w : Writer} (hsame : disk.SameLogs made) (hmade : made.Plain)
    (hkeeps : w.KeepsTo (run.outputDir pl.outSubdir) Outlet.At) :
    Work.Alike made (pl.takeAll run w)
      (Walk.visitAll (Walk.takeLogs pl.selection) (pl.logFiles run disk) { writer := w }) := by
  by_cases hne : run.path.bytes = []
  · rw [logFiles, logFiles_empty hplain hne]
    exact Walk.walk_empty hmade hne _ pl.reach _
  obtain ⟨S, hu⟩ := hsame.updates
  obtain ⟨es, hes⟩ := hrun.hasDir
  obtain ⟨es', hes'⟩ := hu.hasDir hrun.hasDir
  have hloc' := (hrun.keeps hplain hmade hu).locate_eq hmade hne true
  have halike := Walk.walk_alike (Walk.steady_takeLogs pl.selection (run.outputDir pl.outSubdir))
    pl.reach (s := { writer := w }) ⟨hmade, hkeeps⟩ rfl hloc' hes'
  rw [hsame.logsAt_dir hplain hmade hes rfl hes' rfl] at halike
  rwa [logFiles, logFiles_run hplain pl.reach (hrun.locate_eq hplain hne true) hes]

end Walk

/-- When the walk of a run begins, the logs are as before, and the writer keeps to the run's
output directory. -/
theorem walk_made {made : Disk} {w : Writer}
    (hcreate : (Writer.create (run.outputDir pl.outSubdir) run.name).run disk = (made, .ok w)) :
    disk.SameLogs made ∧ made.Plain ∧ w.KeepsTo (run.outputDir pl.outSubdir) Outlet.At := by
  let b := disk.outputBounds (run.outputDir pl.outSubdir)
  have hstays := (b.admits_create run.name).run (fun _ _ => b.keeps) ⟨hplain, .refl _⟩
  rw [hcreate] at hstays
  obtain ⟨hkeeps, hmade, hsame⟩ := hstays
  exact ⟨hsame, hmade, hkeeps⟩

/-- Where nothing is refused, a run does not fail. -/
theorem filterRun_ok (hdir : disk.isDir run.path)
    (hmade : ((Work.makeAllDirs (run.outputDir pl.outSubdir)).run disk).2 = .ok ())
    (hgranted : (pl.filterRun run).Granted disk) :
    ((pl.filterRun run).run disk).2.1.error = none := by
  obtain ⟨-, place, hrun⟩ := hplain.leadsTo_of_isDir hdir
  obtain ⟨w, hw⟩ := Writer.create_ok (create_granted hgranted) hmade
  obtain ⟨later, p, hcourse⟩ := exists_course (Prod.ext rfl hw)
  obtain ⟨hwalk, hend⟩ := hcourse.granted hgranted
  obtain ⟨hsame, hmadePlain, hkeeps⟩ := walk_made hplain hcourse.create
  have halike := walk_visits hplain hrun hsame hmadePlain hkeeps
  have hgoing := Walk.visitAll_ok (halike.granted.mp hwalk) rfl
  rw [← halike.run, hcourse.walk] at hgoing
  rw [conclude_of_going hgoing] at hend
  rw [hcourse.run_of_going hgoing]
  exact Option.map_eq_none_iff.mpr (Writer.finish_ok (Work.granted_bind.mp hend).1)

/-- The logs that a run opens which does not fail are those of a disk that has the same logs
when the walk begins. -/
theorem filterRun_opened {first : Disk} (hfirst : first.Plain) {place : Place}
    (hrun : first.LeadsTo run.path place)
    (hsame : ∀ made w, (Writer.create (run.outputDir pl.outSubdir) run.name).run disk =
      (made, .ok w) → first.SameLogs made)
    (hok : ((pl.filterRun run).run disk).2.1.error = none) :
    (pl.filterRun run).opened disk = first.openAll (pl.logFiles run first) := by
  obtain ⟨made, later, w, p, hcourse, hgoing, -⟩ := exists_course_of_ok hok
  obtain ⟨-, hmadePlain, hkeeps⟩ := walk_made hplain hcourse.create
  have hsame := hsame made w hcourse.create
  have halike := walk_visits hfirst hrun hsame hmadePlain hkeeps
  have hvisits := Walk.visitAll_takeLogs
    (Walk.steady_takeLogs pl.selection (run.outputDir pl.outSubdir)) (pl.logFiles run first)
    (fun file hfile later hlater hplain' => by
      obtain ⟨es, hes, hfile⟩ := mem_logFiles hfirst hrun hfile
      exact hlater.openRead hfirst hplain' hrun hes rfl hfile)
    (p := { writer := w }) ⟨hmadePlain, hkeeps⟩ hsame
  rw [← halike.run, ← halike.opened, hcourse.walk] at hvisits
  rw [hcourse.opened_eq]
  exact hvisits hgoing

/-- They read as they did before it began. -/
theorem filterRun_readings {place : Place} (hrun : disk.LeadsTo run.path place)
    (hok : ((pl.filterRun run).run disk).2.1.error = none) :
    pl.readings run disk = pl.logReadings run disk := by
  rw [readings, logReadings, filterRun_opened hplain hplain hrun
    (fun _ _ hcreate => (walk_made hplain hcreate).1) hok]
  refine disk.readings_openAll fun file hfile => ?_
  obtain ⟨es, hes, hfile⟩ := mem_logFiles hplain hrun hfile
  obtain ⟨below, -, hof, -⟩ :=
    exists_of_mem_logsAt (Node.isPlain_at? hplain.tree hes) rfl hfile
  exact hof

/-- A run that does not fail opens logs at places of logs only. -/
theorem filterRun_opensLogs (hsub : pl.outSubdir.GoesDown)
    (hok : ((pl.filterRun run).run disk).2.1.error = none) :
    ∀ f ∈ (pl.filterRun run).opened disk, isLogPlace f.2.place := by
  obtain ⟨made, later, w, p, hcourse, -⟩ := exists_course_of_ok hok
  obtain ⟨-, hmade, -⟩ := walk_made hplain hcourse.create
  -- The run's directory is there by now, as the one for outputs is below it.
  obtain ⟨dir, hdir⟩ := Writer.create_leadsTo hplain hcourse.create
  obtain ⟨place, hrun⟩ := hmade.leadsTo_of_join hsub hdir
  rw [filterRun_opened hplain hmade hrun (fun made' w' hcreate' => ?_) hok]
  · exact fun f hf => isLogPlace_of_openAll hmade hrun hf
  · obtain ⟨rfl, -⟩ := Prod.mk.inj (hcourse.create.symm.trans hcreate')
    exact .refl _

/-- So it does wherever output goes, if its directory was there. -/
theorem filterRun_opensLogs_of_leadsTo {place : Place} (hrun : disk.LeadsTo run.path place)
    (hok : ((pl.filterRun run).run disk).2.1.error = none) :
    ∀ f ∈ (pl.filterRun run).opened disk, isLogPlace f.2.place := by
  rw [filterRun_opened hplain hplain hrun (fun _ _ hcreate => (walk_made hplain hcreate).1) hok]
  exact fun f hf => isLogPlace_of_openAll hplain hrun hf

section Complete

section OpensLogs

variable (hopens : ∀ e ∈ (pl.filterRun run).history disk, e.1.OpensFile e.2)
  (hok : ((pl.filterRun run).run disk).2.1.error = none)
  (hlogs : ∀ f ∈ (pl.filterRun run).opened disk, isLogPlace f.2.place)
include hopens hok hlogs

/-- Where only files are opened for writing, and only logs for reading, a run that does not fail
is complete. -/
theorem complete_of_opensLogs : pl.Complete run disk ∧
    Disk.SameFiles (fun place => ∀ f ∈ (pl.filterRun run).created disk, f.2.place ≠ place) disk
      ((pl.filterRun run).run disk).1 := by
  refine filterRun_leaves hplain.cwd (filterRun_opensOwn hplain hopens) ?_ hok
  rintro f hf g hg heq
  obtain ⟨x, -, dir, -, hplace⟩ := filterRun_created hplain hg
  exact Outlet.At.not_log ⟨dir, x, hplace⟩ (heq ▸ hlogs f hf)

/-- In its output directory there are then the files of the outlets that occur, and the others
are what they were. -/
theorem outputs_of_opensLogs : ∃ dir,
    ((pl.filterRun run).run disk).1.LeadsTo (run.outputDir pl.outSubdir) dir ∧
    (∀ x : Outlet, x.Occurs (pl.entries run disk) →
      ((pl.filterRun run).run disk).1.bytesAt? (dir ++ [x.name]) =
        some (x.rendering run.name (pl.entries run disk))) ∧
    Disk.SameFiles (fun place => ∀ x : Outlet, x.Occurs (pl.entries run disk) →
      place ≠ dir ++ [x.name]) disk ((pl.filterRun run).run disk).1 := by
  obtain ⟨⟨-, houtlets, hfiles⟩, hsame⟩ := complete_of_opensLogs hplain hopens hok hlogs
  obtain ⟨h, hmem⟩ := houtlets ⟨.all, .json⟩ (.inl rfl)
  obtain ⟨-, -, dir, hdir, -⟩ := filterRun_created hplain hmem
  have hplace {f} (hf : f ∈ (pl.filterRun run).created disk) : ∃ x : Outlet,
      x.Occurs (pl.entries run disk) ∧ f.2.place = dir ++ [x.name] ∧
        ((pl.filterRun run).run disk).1.bytesAt? f.2.place =
          some (x.rendering run.name (pl.entries run disk)) ∧
        f.1 = x.path (run.outputDir pl.outSubdir) := by
    obtain ⟨x, hx, hpath, hbytes⟩ := hfiles f hf
    obtain ⟨y, hy, dir', hdir', hplace⟩ := filterRun_created hplain hf
    obtain rfl := Outlet.path_injective (hpath.trans hy)
    exact ⟨x, hx, hdir.place_eq hdir' ▸ hplace, hbytes, hy⟩
  refine ⟨dir, hdir, fun x hx => ?_, fun q hq => hsame q fun f hf heq => ?_⟩
  · obtain ⟨h, hmem⟩ := houtlets x hx
    obtain ⟨y, -, hy, hbytes, hpath⟩ := hplace hmem
    obtain rfl := Outlet.path_injective hpath
    rwa [hy] at hbytes
  · obtain ⟨x, hx, hxplace, -⟩ := hplace hf
    exact hq x hx (heq ▸ hxplace)

end OpensLogs

/-- If its directory was there, what a run keeps comes of the logs that were found below it. -/
theorem leaves_of_leadsTo {place : Place} (hrun : disk.LeadsTo run.path place)
    (hopens : ∀ e ∈ (pl.filterRun run).history disk, e.1.OpensFile e.2)
    (hok : ((pl.filterRun run).run disk).2.1.error = none) :
    ((pl.filterRun run).run disk).2.1.counts =
      ⟨Reading.lineCount (pl.logReadings run disk), (pl.logEntries run disk).length⟩ ∧ ∃ dir,
    ((pl.filterRun run).run disk).1.LeadsTo (run.outputDir pl.outSubdir) dir ∧
    (∀ x : Outlet, x.Occurs (pl.logEntries run disk) →
      ((pl.filterRun run).run disk).1.bytesAt? (dir ++ [x.name]) =
        some (x.rendering run.name (pl.logEntries run disk))) ∧
    Disk.SameFiles (fun place => ∀ x : Outlet, x.Occurs (pl.logEntries run disk) →
      place ≠ dir ++ [x.name]) disk ((pl.filterRun run).run disk).1 := by
  have hlogs := filterRun_opensLogs_of_leadsTo hplain hrun hok
  obtain ⟨⟨hcounts, -, -⟩, -⟩ := complete_of_opensLogs hplain hopens hok hlogs
  have houtputs := outputs_of_opensLogs hplain hopens hok hlogs
  have hreadings := filterRun_readings hplain hrun hok
  have hentries : pl.entries run disk = pl.logEntries run disk := by
    rw [entries, logEntries, hreadings]
  rw [hreadings, hentries] at hcounts
  rw [hentries] at houtputs
  exact ⟨hcounts, houtputs⟩

variable (hsub : pl.outSubdir.GoesDown)
  (hopens : ∀ e ∈ (pl.filterRun run).history disk, e.1.OpensFile e.2)
  (hok : ((pl.filterRun run).run disk).2.1.error = none)
include hsub hopens hok

/-- Where output goes below the run and only files are opened for writing, a run that does not
fail is complete. -/
theorem complete_of_ok : pl.Complete run disk ∧
    Disk.SameFiles (fun place => ∀ f ∈ (pl.filterRun run).created disk, f.2.place ≠ place) disk
      ((pl.filterRun run).run disk).1 :=
  complete_of_opensLogs hplain hopens hok (filterRun_opensLogs hplain hsub hok)

theorem exists_outputs : ∃ dir,
    ((pl.filterRun run).run disk).1.LeadsTo (run.outputDir pl.outSubdir) dir ∧
    (∀ x : Outlet, x.Occurs (pl.entries run disk) →
      ((pl.filterRun run).run disk).1.bytesAt? (dir ++ [x.name]) =
        some (x.rendering run.name (pl.entries run disk))) ∧
    Disk.SameFiles (fun place => ∀ x : Outlet, x.Occurs (pl.entries run disk) →
      place ≠ dir ++ [x.name]) disk ((pl.filterRun run).run disk).1 :=
  outputs_of_opensLogs hplain hopens hok (filterRun_opensLogs hplain hsub hok)

end Complete

end

/-- On a plain disk, where output goes below the run and only files are opened for writing, a
run that reports no failure has done what it is to do. -/
theorem follows_of_ok (hplain : disk.Plain) (hdir : disk.isDir run.path)
    (hsub : pl.outSubdir.GoesDown)
    (hopens : ∀ e ∈ (pl.filterRun run).history disk, e.1.OpensFile e.2)
    (hok : ((pl.filterRun run).run disk).2.1.error = none) : pl.Follows run disk := by
  obtain ⟨-, place, hrun⟩ := hplain.leadsTo_of_isDir hdir
  obtain ⟨hcounts, dir, hleads, hwritten, hsame⟩ := leaves_of_leadsTo hplain hrun hopens hok
  have hlater := hplain.run (pl.filterRun run)
  have hrun' := hrun.keeps hplain hlater ((pl.filterRun run).run_updates hplain.cwd)
  obtain rfl := hrun'.place_join hlater hsub hleads
  refine ⟨hok, hcounts, fun x hx => ?_, fun x hx => ?_, fun q hq => hsame q fun x hx heq => ?_⟩
  · exact (hleads.bytesOf?_outlet hlater x).trans (hwritten x hx)
  · exact (hleads.bytesOf?_outlet hlater x).trans
      ((hsame.outlet hx).trans (hrun.bytesOf?_output hplain hsub x).symm)
  · obtain ⟨born, access, hat⟩ := Disk.bytesAt?_eq_some.mp (hwritten x hx)
    exact hq x hx (heq ▸ hrun'.locate_output hlater hsub hat true)

/-- On a plain disk, where output goes below the run and nothing is refused, a run does
what it is to do. -/
theorem filterRun_follows (hplain : disk.Plain) (hdir : disk.isDir run.path)
    (hsub : pl.outSubdir.GoesDown)
    (hmade : ((Work.makeAllDirs (run.outputDir pl.outSubdir)).run disk).2 = .ok ())
    (hgranted : (pl.filterRun run).Granted disk) : pl.Follows run disk :=
  follows_of_ok hplain hdir hsub (fun e he => (hgranted e he).opensFile)
    (filterRun_ok hplain hdir hmade hgranted)

open OneVote in
/-- The locked log is passed over, and what the others hold is kept in their order. -/
theorem filterRun_follows_severalLogs :
    (pipeline.logFiles OneVote.run SeveralLogs.disk).map LogFile.node = [0, 1, 2, 0] ∧
      (pipeline.logEntries OneVote.run SeveralLogs.disk).map Entry.node = [0, 1, 0] ∧
      ((pipeline.filterRun OneVote.run).run SeveralLogs.disk).2.1.counts = ⟨5, 3⟩ ∧
      pipeline.Follows OneVote.run SeveralLogs.disk := by
  have hcomputed : (pipeline.logFiles OneVote.run SeveralLogs.disk).map LogFile.node = [0, 1, 2, 0] ∧
      (pipeline.logEntries OneVote.run SeveralLogs.disk).map Entry.node = [0, 1, 0] ∧
      ((pipeline.filterRun OneVote.run).run SeveralLogs.disk).2.1.counts = ⟨5, 3⟩ := by
    decide +kernel
  obtain ⟨hfiles, hentries, hcounts⟩ := hcomputed
  exact ⟨hfiles, hentries, hcounts, filterRun_follows (by decide +kernel) (by decide +kernel)
    (by decide +kernel) (by decide +kernel) (by decide +kernel)⟩

end Pipeline

end NodeLogs
