import NodeLogs.Proofs.Pipeline.Counted
import NodeLogs.Proofs.Pipeline.Isolated
import NodeLogs.Proofs.Pipeline.Taking

/-! Runs that fail. As long as no write is refused, there are two ways to: a run does not begin,
because its writer cannot be made, or it stops at the first line with an entry of a node where a
directory stands in the way of a file. Then it has taken in the lines up to that one, and every
file that it has opened holds what was kept of the lines before. -/

namespace NodeLogs

namespace Pipeline

variable {pl : Pipeline} {run : Run} {disk : Disk}

section Failed

variable (pl run disk)

/-- A run has not begun: its output directory could not be made, or a directory stands where a
file of all nodes would be. No log was opened, and nothing is counted. -/
structure NotBegun (failure : SinkError) : Prop where
  refused : ((Writer.create (run.outputDir pl.outSubdir) run.name).run disk).2 = .error failure
  cause : (∃ e, ((Work.makeAllDirs (run.outputDir pl.outSubdir)).run disk).2 = .error e ∧
      failure = ⟨.createDir, run.outputDir pl.outSubdir, e⟩) ∨
    ∃ form, disk.isDir (Outlet.path (run.outputDir pl.outSubdir) ⟨.all, form⟩) ∧
      failure = ⟨.openSink, Outlet.path (run.outputDir pl.outSubdir) ⟨.all, form⟩, .isADirectory⟩
  counts : ((pl.filterRun run).run disk).2.1.counts = ⟨0, 0⟩
  opened : (pl.filterRun run).opened disk = []

/-- A run has stopped at a line, the first with an entry of a node where a directory stands in
the way of a file. The lines up to this one are counted, and what is kept of those before it is in
the files of its outlets. Every file that was opened has what its outlet is to have of that, and
nothing else. -/
structure StopsAt (failure : SinkError) (before : List LogLine) (l : LogLine)
    (after : List LogLine) (e : Entry) : Prop where
  lines : Reading.lines (pl.logReadings run disk) = before ++ l :: after
  entry : pl.selection.entry? l = some e
  cause : ∃ form, disk.isDir (Outlet.path (run.outputDir pl.outSubdir) ⟨.node e.node, form⟩) ∧
    failure =
      ⟨.openSink, Outlet.path (run.outputDir pl.outSubdir) ⟨.node e.node, form⟩, .isADirectory⟩
  first : ∀ e' ∈ pl.selection.entriesOf before, ∀ form,
    ¬ disk.isDir (Outlet.path (run.outputDir pl.outSubdir) ⟨.node e'.node, form⟩)
  counts : ((pl.filterRun run).run disk).2.1.counts =
    ⟨before.length + 1, (pl.selection.entriesOf before).length⟩
  written : ∀ x : Outlet, x.Occurs (pl.selection.entriesOf before) →
    pl.output? run ((pl.filterRun run).run disk).1 x =
      some (x.rendering run.name (pl.selection.entriesOf before))
  files : ∀ f ∈ (pl.filterRun run).created disk, ∃ x : Outlet,
    f.1 = x.path (run.outputDir pl.outSubdir) ∧
    pl.output? run ((pl.filterRun run).run disk).1 x =
      some (x.rendering run.name (pl.selection.entriesOf before))

end Failed

/-- When the writer is let go of, every file that it has opened holds what its outlet is to have of
the lines that were taken in. -/
theorem Wrote.released {taken : List LogLine} {w : Writer} {files : List (Path × Handle)}
    (h : pl.Wrote run taken disk w files)
    (hun : w.release.Unhindered disk files) :
    (∀ f ∈ files, ∃ x : Outlet, f.1 = x.path (run.outputDir pl.outSubdir) ∧
      pl.output? run (w.release.run disk).1 x =
        some (x.rendering run.name (pl.selection.entriesOf taken))) ∧
    ∀ x : Outlet, x.Occurs (pl.selection.entriesOf taken) →
      pl.output? run (w.release.run disk).1 x =
        some (x.rendering run.name (pl.selection.entriesOf taken)) := by
  obtain ⟨calls, hintact, hkept⟩ := h
  rw [← hkept]
  have hown : Session.OwnFiles ⟨disk, w, files, calls⟩ := by
    have hapart := hun.apart
    rwa [w.release_writesTo.created_eq, List.append_nil] at hapart
  have hfiles {f : Path × Handle} (hf : f ∈ files) :=
    hintact.ends_bytesAt? hown (.release hun.accepted) hf
  refine ⟨fun f hf => ?_, fun x hx => ?_⟩
  · obtain ⟨x, hx, hloc, hbytes⟩ := hfiles hf
    exact ⟨x, hx, by rw [output?, ← hx, Disk.bytesOf?_of_found hloc, hbytes]⟩
  · obtain ⟨sink, hsink⟩ := Option.isSome_iff_exists.mp ((hintact.open_iff x).mpr hx)
    obtain ⟨f, hf, hpath, -⟩ := hintact.listed x sink hsink
    obtain ⟨y, hy, hloc, hbytes⟩ := hfiles hf
    obtain rfl := Outlet.path_injective (hpath.symm.trans hy)
    rw [output?, ← hy, Disk.bytesOf?_of_found hloc, hbytes]

section

variable (hplain : disk.Plain)
include hplain

/-- A run makes no directory among its output files. -/
theorem isDir_of_filterRun (hsub : pl.outSubdir.GoesDown) (hdir : disk.isDir run.path) {x : Outlet}
    (h : ((pl.filterRun run).run disk).1.isDir (x.path (run.outputDir pl.outSubdir))) :
    disk.isDir (x.path (run.outputDir pl.outSubdir)) := by
  obtain ⟨hne, place, hrun⟩ := hplain.leadsTo_of_isDir hdir
  have hgrows := filterRun_grows hsub hplain hne hrun
  have hplain' := hplain.run (pl.filterRun run)
  have hrun' := hrun.keeps hplain hplain' ((pl.filterRun run).run_updates hplain.cwd)
  obtain ⟨q, hloc, hq⟩ := (Disk.isDir_iff _ _).mp h
  obtain ⟨dir, hout, hname⟩ := hplain'.leadsTo_of_child x.stepName hloc
  obtain rfl := hrun'.place_join hplain' hsub hout
  obtain rfl := hout.place_child hplain' hname (hplain'.leadsTo hloc hq)
  have hbefore : disk.root.HasDir (place ++ pl.outSubdir.inside ++ [x.name]) := by
    obtain ⟨es, hes⟩ := hq
    cases hn : disk.root.at? (place ++ pl.outSubdir.inside ++ [x.name]) with
    | none =>
      cases hgrows.made _ _ hn hes with
      | dir _ hprefix => exact absurd hprefix.length_le (by simp)
    | some n =>
      obtain ⟨m, hm, hkind⟩ := hgrows.kinds _ _ hn
      obtain rfl := Option.some.inj (hes.symm.trans hm)
      obtain ⟨es', rfl⟩ := Node.kind_eq_dir.mp hkind.symm
      exact ⟨es', hn⟩
  have hout := hrun.join hplain hsub hbefore.left
  exact (hout.child hplain hname hbefore).isDir hplain (Path.child_ne_nil x.stepName _)

/-- A new writer was given no entries. -/
theorem wrote_create {w : Writer}
    (h : (Writer.create (run.outputDir pl.outSubdir) run.name).Unhindered disk [])
    (hmade : ((Writer.create (run.outputDir pl.outSubdir) run.name).run disk).2 = .ok w) :
    pl.Wrote run [] ((Writer.create (run.outputDir pl.outSubdir) run.name).run disk).1 w
      ((Writer.create (run.outputDir pl.outSubdir) run.name).created disk) :=
  ⟨[], (Session.Starts.create hplain.cwd h.opens hmade).intact h.apart, rfl⟩

/-- Where its writer cannot be made, a run has not begun. -/
theorem notBegun (hsub : pl.outSubdir.GoesDown) (hdir : disk.isDir run.path) {made : Disk}
    {failure : SinkError}
    (hrefused : (Writer.create (run.outputDir pl.outSubdir) run.name).run disk =
      (made, .error failure)) : pl.NotBegun run disk failure := by
  have hrun := filterRun_refused hrefused
  obtain ⟨hne, place, hplace⟩ := hplain.leadsTo_of_isDir hdir
  have hleads (hmade : ((Work.makeAllDirs (run.outputDir pl.outSubdir)).run disk).2 = .ok ()) :=
    Exists.intro _ (Work.makeAllDirs_leadsTo hplain hplace hne hsub hmade)
  have herror := congrArg Prod.snd hrefused
  refine ⟨herror, ?_, by rw [hrun]; rfl, opened_of_refused hrefused⟩
  rcases Writer.create_error hplain hleads herror with hunmade | ⟨form, hfailure, hblocked⟩
  · exact .inl hunmade
  · refine .inr ⟨form, isDir_of_filterRun hplain hsub hdir ?_, hfailure⟩
    rw [hrefused] at hblocked
    rwa [hrun]

namespace Course

variable {made later : Disk} {w : Writer} {p : Progress} (h : pl.Course run disk made later w p)
include h

section Unhindered

variable (hun : (pl.filterRun run).Unhindered disk [])
include hun

omit hplain in
theorem unhindered_walk : (pl.takeAll run w).Unhindered made
    ((Writer.create (run.outputDir pl.outSubdir) run.name).created disk) := by
  rw [filterRun_parts] at hun
  exact (hun.rest h.create).left

omit hplain in
theorem unhindered_end :
    (pl.conclude run p).Unhindered later ((pl.filterRun run).created disk) := by
  rw [h.created_eq]
  rw [filterRun_parts] at hun
  exact (hun.rest h.create).rest h.walk

/-- Once it has a writer, a run takes the lines of its logs in. -/
theorem took (hdir : disk.isDir run.path) :
    pl.Took run [] (Reading.lines (pl.logReadings run disk)) later
      ((pl.filterRun run).created disk) p := by
  obtain ⟨-, place, hrun⟩ := hplain.leadsTo_of_isDir hdir
  obtain ⟨hsame, hmadePlain, hkeeps⟩ := walk_made hplain h.create
  obtain ⟨dir, hleads⟩ := Writer.create_leadsTo hplain h.create
  obtain ⟨es, hes⟩ := hrun.hasDir
  have hwrote := wrote_create hplain hun.left (congrArg Prod.snd h.create)
  rw [h.create] at hwrote
  have halike := walk_visits hplain hrun hsame hmadePlain hkeeps
  have hlogs (file : LogFile) (hfile : file ∈ pl.logFiles run disk) :
      file ∈ logsAt pl.reach run.path (.dir es) := by
    obtain ⟨es', hes', hfile⟩ := mem_logFiles hplain hrun hfile
    obtain rfl : es = es' := by simpa [hes] using hes'
    exact hfile
  have hwalk := h.unhindered_walk hun
  have htook := visitAll_takesIn hplain hrun hes rfl hlogs hsame hleads hmadePlain hkeeps
    (p := { writer := w }) ⟨hwrote, rfl, rfl⟩
    ⟨halike.opensFile.mp hwalk.opens, halike.accepted.mp hwalk.accepted,
      halike.created ▸ hwalk.apart⟩
  rwa [← halike.run, ← halike.created, h.walk, ← h.created_eq] at htook

/-- A run that has a writer and fails has stopped at a line, and the writer is let go of. -/
theorem exists_stopped (hdir : disk.isDir run.path) {error : RunError}
    (herror : ((pl.filterRun run).run disk).2.1.error = some error) :
    ∃ failure before l after e, error = .sink failure ∧
      Reading.lines (pl.logReadings run disk) = before ++ l :: after ∧
      pl.selection.entry? l = some e ∧ p.failure = some failure ∧
      pl.Stopped run before e later ((pl.filterRun run).created disk) p ∧
      p.writer.release.Unhindered later ((pl.filterRun run).created disk) := by
  have hend := h.unhindered_end hun
  cases h.took hplain hun hdir with
  | all hgoing =>
    -- All lines are in, and when it is finished, the writer has nothing to fail at.
    rw [conclude_of_going hgoing.failure] at hend
    have hfinish := Writer.finish_ok (p.writer.finish_writesTo.granted hend.left.accepted)
    rw [h.run_of_going hgoing.failure, hfinish] at herror
    cases herror
  | @upTo before l after e hls he hstopped =>
    obtain ⟨form, hfailed, -⟩ := hstopped.blocked
    rw [conclude_of_stopped hfailed] at hend
    rw [h.run_of_stopped hfailed] at herror
    cases herror
    exact ⟨_, before, l, after, e, rfl, hls, he, hfailed, hstopped, hend.left⟩

/-- It has stopped at the first line with an entry that a directory stands in the way of. -/
theorem stopsAt (hsub : pl.outSubdir.GoesDown) (hdir : disk.isDir run.path) {error : RunError}
    (herror : ((pl.filterRun run).run disk).2.1.error = some error) :
    ∃ failure, error = .sink failure ∧
      ∃ before l after e, pl.StopsAt run disk failure before l after e := by
  obtain ⟨failure, before, l, after, e, hsink, hlines, hentry, hfailed, hstopped, hend⟩ :=
    h.exists_stopped hplain hun hdir herror
  obtain ⟨form, hcause, hblocked⟩ := hstopped.blocked
  cases hfailed.symm.trans hcause
  have hrun := h.run_of_stopped hfailed
  have hlast := congrArg Prod.fst hrun
  obtain ⟨hfiles, hwritten⟩ := hstopped.wrote.released hend
  rw [← hlast] at hfiles hwritten
  have hlater : later.Plain := by
    have hwalked := (walk_made hplain h.create).2.1.run (pl.takeAll run w)
    rwa [h.walk] at hwalked
  have hdirs {x : Outlet} (hx : ((pl.filterRun run).run disk).1.isDir _) :=
    isDir_of_filterRun (x := x) hplain hsub hdir hx
  refine ⟨_, hsink, before, l, after, e, hlines, hentry, ⟨form, hdirs ?_, rfl⟩, ?_, ?_, hwritten,
    hfiles⟩
  · rw [hlast]
    exact hlater.isDir_run p.writer.release hblocked
  · -- Where a directory was, it would still be, and not the file of the outlet.
    intro e' he' form' hdir'
    have hbytes := hwritten ⟨.node e'.node, form'⟩ (.inr ⟨e', he', rfl⟩)
    rw [output?, Disk.bytesOf?_of_isDir (hplain.isDir_run (pl.filterRun run) hdir')] at hbytes
    cases hbytes
  · rw [hrun]
    exact hstopped.counts

end Unhindered

end Course

end

/-- On a plain disk, where output goes below the run, only files are opened for writing and no
write is refused, a run that fails has not begun, or it has stopped at the first line with an entry
that a directory stands in the way of. However a run ends, its counts add up. -/
theorem filterRun_stops (pl : Pipeline) :
    (∀ (run : Run) (disk : Disk), disk.Plain → disk.isDir run.path → pl.outSubdir.GoesDown →
      (∀ e ∈ (pl.filterRun run).history disk, e.1.OpensFile e.2) →
      (pl.filterRun run).Accepted disk →
      ∀ error, ((pl.filterRun run).run disk).2.1.error = some error →
        ∃ failure, error = .sink failure ∧ (pl.NotBegun run disk failure ∨
          ∃ before l after e, pl.StopsAt run disk failure before l after e)) ∧
    pl.CountsAddUp := by
  refine ⟨fun run disk hplain hdir hsub hopens hok error herror => ?_, pl.countsAddUp⟩
  cases hcreate : (Writer.create (run.outputDir pl.outSubdir) run.name).run disk with
  | mk made result =>
    cases result with
    | error refused =>
      rw [filterRun_refused hcreate] at herror
      cases herror
      exact ⟨refused, rfl, .inl (notBegun hplain hsub hdir hcreate)⟩
    | ok w =>
      have hun : (pl.filterRun run).Unhindered disk [] :=
        ⟨hopens, hok, by simpa using (filterRun_opensOwn hplain hopens).apart⟩
      obtain ⟨later, p, hcourse⟩ := exists_course hcreate
      obtain ⟨failure, hsink, hstops⟩ := hcourse.stopsAt hplain hun hsub hdir herror
      exact ⟨failure, hsink, .inr hstops⟩

open OneVote in
/-- The line of the first log is kept, and the run stops at that of the second. -/
theorem filterRun_stops_blocked :
    ((pipeline.filterRun OneVote.run).run blocked).2.1.counts = ⟨2, 1⟩ ∧
      ∃ failure before l after e,
        pipeline.StopsAt OneVote.run blocked failure before l after e ∧ before.length = 1 := by
  have hplain : blocked.Plain := by decide +kernel
  have hcounts : ((pipeline.filterRun OneVote.run).run blocked).2.1.counts = ⟨2, 1⟩ := by
    decide +kernel
  have hfails : ((pipeline.filterRun OneVote.run).run blocked).2.1.error.isSome := by
    decide +kernel
  obtain ⟨error, herror⟩ := Option.isSome_iff_exists.mp hfails
  obtain ⟨failure, -, hnot | ⟨before, l, after, e, hstops⟩⟩ :=
    (filterRun_stops pipeline).1 OneVote.run blocked hplain (by decide +kernel) (by decide +kernel)
      ((pipeline.filterRun OneVote.run).opensFiles hplain (by decide +kernel)) (by decide +kernel)
      error herror
  · cases hcounts.symm.trans hnot.counts
  · refine ⟨hcounts, failure, before, l, after, e, hstops, ?_⟩
    have hscanned := congrArg Counts.scanned (hcounts.symm.trans hstops.counts)
    exact (Nat.succ.inj hscanned).symm

end Pipeline

end NodeLogs
