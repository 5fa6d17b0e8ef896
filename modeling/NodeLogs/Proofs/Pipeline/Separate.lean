import NodeLogs.Proofs.Pipeline.Leftovers
import NodeLogs.Proofs.Pipeline.Together
import NodeLogs.Settings.Basic

/-! Runs that do not share output files. Where outputs go below the runs, each run comes to
what it would come to alone, and what it has written is still there when all are through,
whatever became of the other runs. A directory for outputs that leads out of the runs is shared by them: then the last
one empties what those before it have written, and none of them fails. -/

namespace NodeLogs

namespace Pipeline

variable {pl : Pipeline} {disk : Disk}

/-! ### Runs beside others -/

section Runs

variable {runs : List Run} (hsub : pl.outSubdir.GoesDown)
include hsub

/-- Where the same lies below its directory, a run comes to the same, and leaves the same there. -/
theorem filterRun_congr {run : Run} (hne : run.path.bytes ≠ []) (hplain : disk.Plain) {place : Place}
    (hrun : disk.LeadsTo run.path place) {other : Disk} (hplain' : other.Plain)
    (hrun' : other.LeadsTo run.path place) (hsame : disk.SameBelow place other) :
    ((pl.filterRun run).run other).2 = ((pl.filterRun run).run disk).2 ∧
      ((pl.filterRun run).run disk).1.SameBelow place ((pl.filterRun run).run other).1 :=
  (pl.filterRun_keepsTo hne hsub).run_congr Disk.keeps_leadsTo ⟨hplain, hrun⟩ ⟨hplain', hrun'⟩ hsame

/-- Runs that are apart from a run leave its output files alone. -/
theorem filterRuns_sameBelow (hplain : disk.Plain) (hruns : disk.Parts runs) {place : Place}
    (hapart : ∀ run ∈ runs, ∀ other, disk.LeadsTo run.path other → place.Apart other) :
    disk.SameBelow place ((pl.filterRuns runs).run disk).1 := by
  induction runs generalizing disk with
  | nil => exact .refl place disk
  | cons run runs ih =>
    obtain ⟨hne, other, hleads⟩ := hruns.leadsTo run List.mem_cons_self
    have hplain' := hplain.run (pl.filterRun run)
    have hu := (pl.filterRun run).run_updates hplain.cwd
    have hfirst := (pl.filterRun_local hne hsub hplain hleads).sameBelow
      (fun _ c h => h.answer c) hplain.becomes (hapart run List.mem_cons_self other hleads)
    have hrest := hruns.sublist (List.sublist_cons_self run runs)
    have hlater : ∀ run' ∈ runs, ∀ other',
        ((pl.filterRun run).run disk).1.LeadsTo run'.path other' → place.Apart other' :=
      fun run' hrun' other' hother' => hapart run' (List.mem_cons_of_mem run hrun') other'
        (hrest.leadsTo_of hplain hplain' hu hrun' hother')
    rw [filterRuns_cons]
    exact hfirst.trans (ih hplain' (hrest.keeps hplain hplain' hu) hlater)

/-- Among runs that are apart, each comes to what it comes to alone, and what it leaves below
its directory is there in the end. -/
theorem filterRuns_alone (hplain : disk.Plain) (hruns : disk.Parts runs) :
    ∀ result ∈ ((pl.filterRuns runs).run disk).2,
      result = ((pl.filterRun result.1.run).run disk).2 ∧
        ∀ place, disk.LeadsTo result.1.run.path place →
          ((pl.filterRun result.1.run).run disk).1.SameBelow place
            ((pl.filterRuns runs).run disk).1 := by
  induction runs generalizing disk with
  | nil => simp [filterRuns]
  | cons run runs ih =>
    obtain ⟨hne, place, hleads⟩ := hruns.leadsTo run List.mem_cons_self
    have hplain' := hplain.run (pl.filterRun run)
    have hu := (pl.filterRun run).run_updates hplain.cwd
    have hrest := hruns.sublist (List.sublist_cons_self run runs)
    rw [filterRuns_cons]
    refine List.forall_mem_cons.mpr ⟨?_, fun result hresult => ?_⟩
    · rw [filterRun_run]
      refine ⟨rfl, fun place' hplace' => ?_⟩
      obtain rfl := hleads.place_eq hplace'
      exact filterRuns_sameBelow hsub hplain' (hrest.keeps hplain hplain' hu)
        fun other hother place' hplace' => List.rel_of_pairwise_cons hruns.apart hother place place'
          hleads (hrest.leadsTo_of hplain hplain' hu hother hplace')
    · have hrun := pl.run_mem_of_mem_filterRuns runs _ hresult
      obtain ⟨hne', place', hleads'⟩ := hrest.leadsTo _ hrun
      -- The first run is not noticed where this one lies.
      have hapart := List.rel_of_pairwise_cons hruns.apart hrun place place' hleads hleads'
      have hsame := (pl.filterRun_local hne hsub hplain hleads).sameBelow (fun _ c h => h.answer c)
        hplain.becomes hapart.symm
      have hleads'' := hleads'.keeps hplain hplain' hu
      obtain ⟨hresult', hbelow⟩ := filterRun_congr hsub hne' hplain hleads' hplain' hleads'' hsame
      obtain ⟨halone, hlater⟩ := ih hplain' (hrest.keeps hplain hplain' hu) result hresult
      refine ⟨halone.trans hresult', fun q hq => ?_⟩
      obtain rfl := hleads'.place_eq hq
      exact hbelow.trans (hlater _ hleads'')

end Runs

/-- An outcome is that of its run alone, and so is what the run leaves below its directory: the
nodes there, and the output files among them. -/
structure StandsAlone (pl : Pipeline) (disk later : Disk) (o : Outcome) : Prop where
  outcome : o = ((pl.filterRun o.run).run disk).2.1
  node : later.node o.run.path = ((pl.filterRun o.run).run disk).1.node o.run.path
  outputs : ∀ x, pl.output? o.run later x = pl.output? o.run ((pl.filterRun o.run).run disk).1 x

/-- Runs that are apart stand alone. -/
theorem filterRuns_standAlone (hsub : pl.outSubdir.GoesDown) {runs : List Run} (hplain : disk.Plain)
    (hruns : disk.Parts runs) : ∀ result ∈ ((pl.filterRuns runs).run disk).2,
      pl.StandsAlone disk ((pl.filterRuns runs).run disk).1 result.1 := by
  intro result hresult
  obtain ⟨hne, place, hleads⟩ := hruns.leadsTo _ (pl.run_mem_of_mem_filterRuns runs disk hresult)
  obtain ⟨halone, hlater⟩ := filterRuns_alone hsub hplain hruns result hresult
  have hbelow := hlater place hleads
  have hplain₁ := hplain.run (pl.filterRun result.1.run)
  have hplain₂ := hplain.run (pl.filterRuns runs)
  have hleads₁ := hleads.keeps hplain hplain₁ ((pl.filterRun result.1.run).run_updates hplain.cwd)
  have hleads₂ := hleads.keeps hplain hplain₂ ((pl.filterRuns runs).run_updates hplain.cwd)
  refine ⟨congrArg Prod.fst halone, ?_, fun x => ?_⟩
  · obtain ⟨es, hes⟩ := hleads₁.hasDir
    rw [Walk.node_eq (hleads₁.locate_eq hplain₁ hne true) hes,
      Walk.node_eq (hleads₂.locate_eq hplain₂ hne true) (hbelow.node.trans hes)]
  · rw [output?, output?, Run.outputDir, hleads₁.bytesOf?_output hplain₁ hsub,
      hleads₂.bytesOf?_output hplain₂ hsub, Disk.bytesAt?, Disk.bytesAt?, List.append_assoc,
      hbelow.at?]

/-- What an outcome without a failure stands for: the counts are those of the run's logs, and
in its output directory are its records and none of another run. -/
structure Delivers (pl : Pipeline) (disk later : Disk) (o : Outcome) : Prop where
  outDir : o.outDir = o.run.outputDir pl.outSubdir
  counts : o.counts = ⟨Reading.lineCount (pl.logReadings o.run disk),
    (pl.logEntries o.run disk).length⟩
  files : ∀ x : Outlet, x.Occurs (pl.logEntries o.run disk) →
    later.bytesOf? (x.path o.outDir) = some (x.rendering o.run.name (pl.logEntries o.run disk))

/-- A run that stands alone delivers if it does not fail. -/
theorem StandsAlone.delivers {later : Disk} {o : Outcome} (h : pl.StandsAlone disk later o)
    (hsub : pl.outSubdir.GoesDown) (hplain : disk.Plain) (hdevices : disk.root.hasNoDevice)
    (hdir : disk.isDir o.run.path) (hok : o.error = none) : pl.Delivers disk later o := by
  have hfollows := follows_of_ok hplain hdir hsub ((pl.filterRun o.run).opensFiles hplain hdevices)
    (h.outcome ▸ hok)
  have houtDir : o.outDir = o.run.outputDir pl.outSubdir :=
    (congrArg Outcome.outDir h.outcome).trans (pl.filterRun_outDir o.run disk)
  refine ⟨houtDir, (congrArg Outcome.counts h.outcome).trans hfollows.counts, fun x hx => ?_⟩
  rw [houtDir, ← hfollows.written x hx]
  exact h.outputs x

/-- On a plain disk without devices, where outputs go below the runs, each run that does not
fail delivers. -/
theorem process_delivers {disk : Disk} (hplain : disk.Plain) (hdevices : disk.root.hasNoDevice)
    (hsub : pl.outSubdir.GoesDown) {root : Path} {report : Report}
    (hreport : ((pl.process root).run disk).2.1 = .ok report) :
    ∀ o ∈ report.outcomes, o.error = none →
      pl.Delivers disk ((pl.process root).run disk).1 o := by
  obtain ⟨runs, hruns, hlater, houtcomes⟩ := process_report hplain hreport
  intro o ho hok
  rw [houtcomes] at ho
  obtain ⟨result, hmem, rfl⟩ := List.mem_map.mp ho
  obtain ⟨hne, place, hleads⟩ := hruns.leadsTo _ (pl.run_mem_of_mem_filterRuns runs disk hmem)
  rw [hlater]
  exact (filterRuns_standAlone hsub hplain hruns result hmem).delivers hsub hplain hdevices
    (hleads.isDir hplain hne) hok

end Pipeline

/-! ### A directory beside the runs -/

namespace OneVote

/-- Outputs go to a directory beside the runs. -/
def beside : Pipeline :=
  { pipeline with outSubdir := .ofString "../shared" }

end OneVote

namespace Pipeline

open OneVote

theorem process_delivers_twoVotes : ∃ report,
    ((pipeline.process (.ofString "/")).run twoVotes).2.1 = .ok report ∧
      report.outcomes.map Outcome.run = twoRuns ∧ report.failures = [] ∧
      ∀ o ∈ report.outcomes, o.error = none →
        pipeline.Delivers twoVotes ((pipeline.process (.ofString "/")).run twoVotes).1 o := by
  have hreport : ((pipeline.process (.ofString "/")).run twoVotes).2.1.toOption.map
      (fun report => (report.outcomes.map Outcome.run, report.failures)) = some (twoRuns, []) := by
    decide +kernel
  cases hresult : ((pipeline.process (.ofString "/")).run twoVotes).2.1 with
  | error e =>
    rw [hresult] at hreport
    cases hreport
  | ok report =>
    rw [hresult] at hreport
    obtain ⟨hruns, hfailures⟩ := Prod.mk.inj (Option.some.inj hreport)
    exact ⟨report, rfl, hruns, hfailures, process_delivers (by decide +kernel) (by decide +kernel)
      (by decide +kernel) hresult⟩

/-- A directory that settings may name, but that leads out of the runs: no run fails, and
the file of all nodes of the first one does not hold what it has kept. -/
theorem process_shares :
    ((Settings.resolve { outSubdir := some "../shared".toList } {}).toOption.map fun settings =>
        Path.ofText settings.outSubdir) = some beside.outSubdir ∧
      twoVotes.Plain ∧ twoVotes.root.hasNoDevice ∧
      ∃ report, ((beside.process (.ofString "/")).run twoVotes).2.1 = .ok report ∧
        report.failures = [] ∧ report.outcomes.map Outcome.run = twoRuns ∧
        ¬ ∀ o ∈ report.outcomes, ((beside.process (.ofString "/")).run twoVotes).1.bytesOf?
          (Outlet.path o.outDir ⟨.all, .json⟩) = some (Outlet.rendering o.run.name
            (beside.logEntries o.run twoVotes) ⟨.all, .json⟩) := by
  refine ⟨by decide +kernel, by decide +kernel, by decide +kernel, ?_⟩
  have hreport : ((beside.process (.ofString "/")).run twoVotes).2.1.toOption.map (fun report =>
      (report.outcomes.map Outcome.run, report.failures, decide (∀ o ∈ report.outcomes,
        ((beside.process (.ofString "/")).run twoVotes).1.bytesOf?
          (Outlet.path o.outDir ⟨.all, .json⟩) = some (Outlet.rendering o.run.name
            (beside.logEntries o.run twoVotes) ⟨.all, .json⟩)))) = some (twoRuns, [], false) := by
    decide +kernel
  cases hresult : ((beside.process (.ofString "/")).run twoVotes).2.1 with
  | error e =>
    rw [hresult] at hreport
    cases hreport
  | ok report =>
    rw [hresult] at hreport
    simp only [Except.toOption, Option.map_some, Option.some.injEq, Prod.mk.injEq,
      decide_eq_false_iff_not] at hreport
    obtain ⟨hruns, hfailures, hnot⟩ := hreport
    exact ⟨report, rfl, hfailures, hruns, hnot⟩

end Pipeline

end NodeLogs
