import NodeLogs.Proofs.Pipeline.Again
import NodeLogs.Proofs.Tree.Growth

/-! Runs and all else. With its outputs below it, a run makes the directories on the way to
its output directory, and makes or rewrites output files there, and that is all it does to the
tree. What it does, and what comes of it, depends on nothing but what lies below its own
directory. So each run of a report comes to what it would come to alone. -/

namespace NodeLogs

/-! ### What a run changes -/

/-- The place is that of an output file in a directory. -/
def Outlet.In (dir place : Place) : Prop :=
  ∃ x : Outlet, place = dir ++ [x.name]

/-- A directory that is made below another stands at the place that its path spells. -/
theorem Disk.AllHaveDir.makeDir_place {ok : Disk → Prop} {place : Place}
    (hok : Disk.AllHaveDir ok place) {p : Path} {steps : List Name} (h : p.Under ok place steps)
    {disk : Disk} (hdisk : ok disk) {dir : Place} {name : Name}
    (hloc : disk.locate false (Disk.withoutSlashes p) = .ok (.free dir name)) :
    dir ++ [name] = place ++ steps.filter (· ≠ Path.dot) := by
  rw [hok.locate_under h.withoutSlashes hdisk] at hloc
  split at hloc
  · cases hloc
  · have hplace := Node.go_place (hok.plain hdisk).tree h.withoutSlashes.down_append hloc
    rwa [Path.filter_append_dot] at hplace

/-- The disks that a run may make of one disk, with its outputs below it: directories are made
on the way to the outputs only, and no files but outputs are made or written to. -/
def Bounds.growing (disk : Disk) {p sub : Path} (place : Place) (hne : p.bytes ≠ [])
    (hsub : sub.GoesDown) : Bounds (p.join sub) where
  ok later := (later.Plain ∧ later.LeadsTo p place) ∧
    disk.Grows (· <+: place ++ sub.inside) (Outlet.In (place ++ sub.inside)) later
  call
    | .makeDir q => ∃ steps, q.Under (fun later => later.Plain ∧ later.LeadsTo p place) place steps ∧
        steps.filter (· ≠ Path.dot) <+: sub.inside
    | .create q => ∃ x : Outlet, q = x.path (p.join sub)
    | .write h _ => Outlet.In (place ++ sub.inside) h.place
    | _ => True
  own := Outlet.In (place ++ sub.inside)
  logs _ := True
  within _ := True
  keeps := by
    rintro later c ⟨hlater, hgrows⟩ hc
    refine ⟨Disk.keeps_leadsTo later c hlater, hgrows.trans (.answer hlater.1.cwd ?_ ?_ ?_)⟩
    · rintro q dir name rfl hloc
      obtain ⟨steps, hunder, hway⟩ := hc
      rw [(Disk.allHaveDir_leadsTo p place).makeDir_place hunder hlater hloc]
      exact (List.prefix_append_right_inj place).mpr hway
    · rintro q h rfl hok
      obtain ⟨x, rfl⟩ := hc
      exact ⟨x, hlater.2.create_place hlater.1 hsub hok⟩
    · rintro h bs rfl
      exact hc
  dirs := by
    refine ((Work.makeAllDirs_stays (Disk.allHaveDir_leadsTo p place) hne (fun _ h => h.2)
      hsub).onDisks fun _ h => h.1).mono ?_ fun _ => id
    rintro c ⟨q, steps, rfl | rfl, hunder, hway⟩
    · exact ⟨steps, hunder, hway⟩
    · trivial
  create x := ⟨x, rfl⟩
  created hlater hok := ⟨_, hlater.1.2.create_place hlater.1.1 hsub hok⟩
  write _ h := h
  isDir _ := trivial
  isFile _ := trivial
  list _ := trivial
  below _ _ _ _ := trivial
  openRead _ := trivial
  opened _ _ _ := trivial
  read _ _ := trivial

namespace Pipeline

variable {pl : Pipeline} {run : Run} {disk other : Disk} {place : Place}

theorem filterRun_grows (hsub : pl.outSubdir.GoesDown) (hplain : disk.Plain)
    (hne : run.path.bytes ≠ []) (hrun : disk.LeadsTo run.path place) :
    disk.Grows (· <+: place ++ pl.outSubdir.inside) (Outlet.In (place ++ pl.outSubdir.inside))
      ((pl.filterRun run).run disk).1 :=
  let b := Bounds.growing disk place hne hsub
  ((pl.filterRun_stays run b trivial).run (fun _ _ => b.keeps) ⟨⟨hplain, hrun⟩, .refl _ _ disk⟩).2.2

/-- Every log that is found anywhere holds after a run what it held before. -/
theorem filterRun_keepsLogs (hplain : disk.Plain) {reach : Nat} {p : Path} {file : LogFile}
    (hfile : file ∈ ((NodeLogs.logFiles reach p).run disk).2) : ∃ bytes,
      disk.bytesOf? file.path = some bytes ∧
        ((pl.filterRun run).run disk).1.bytesOf? file.path = some bytes := by
  have hsame : disk.SameLogs ((pl.filterRun run).run disk).1 := filterRun_sameLogs hplain
  obtain ⟨q, born, bytes, access, hloc, hloc', hn, hn'⟩ :=
    hsame.exists_found hplain (hplain.run (pl.filterRun run)) hfile
  refine ⟨bytes, ?_, ?_⟩
  · simp [Disk.bytesOf?, hloc, Disk.bytesAt?, hn, Node.bytes?]
  · simp [Disk.bytesOf?, hloc', Disk.bytesAt?, hn', Node.bytes?]

/-- What a run does to the tree is to make directories on the way to its output directory, and
to make or rewrite output files there; no log is changed, wherever it is. What comes of it,
below its own directory and in its outcome, depends on what was there only. -/
structure KeepsToItself (pl : Pipeline) (run : Run) (disk : Disk) (place : Place) : Prop where
  leadsTo : disk.LeadsTo run.path place
  tree : disk.Grows (· <+: place ++ pl.outSubdir.inside) (Outlet.In (place ++ pl.outSubdir.inside))
    ((pl.filterRun run).run disk).1
  logs : ∀ reach p, ∀ file ∈ ((NodeLogs.logFiles reach p).run disk).2, ∃ bytes,
    disk.bytesOf? file.path = some bytes ∧
      ((pl.filterRun run).run disk).1.bytesOf? file.path = some bytes
  depends : ∀ other : Disk, other.Plain → other.LeadsTo run.path place →
    disk.SameBelow place other →
      ((pl.filterRun run).run other).2 = ((pl.filterRun run).run disk).2 ∧
        ((pl.filterRun run).run disk).1.SameBelow place ((pl.filterRun run).run other).1

theorem filterRun_keepsToItself (hsub : pl.outSubdir.GoesDown) (hplain : disk.Plain)
    (hdir : disk.isDir run.path) : ∃ place, pl.KeepsToItself run disk place := by
  obtain ⟨hne, place, hrun⟩ := hplain.leadsTo_of_isDir hdir
  exact ⟨place, hrun, filterRun_grows hsub hplain hne hrun,
    fun _ _ _ hfile => filterRun_keepsLogs hplain hfile,
    fun _ hplain' hrun' => filterRun_congr hsub hne hplain hrun hplain' hrun'⟩

/-- On a plain disk, where outputs go below the runs, each run keeps to itself, and in a report
every outcome stands alone, whatever the other runs contain and however they fail. -/
theorem process_isolates (hsub : pl.outSubdir.GoesDown) (hplain : disk.Plain) :
    (∀ run : Run, disk.isDir run.path → ∃ place, pl.KeepsToItself run disk place) ∧
      ∀ root report, ((pl.process root).run disk).2.1 = .ok report →
        ∀ o ∈ report.outcomes, pl.StandsAlone disk ((pl.process root).run disk).1 o := by
  refine ⟨fun run hdir => filterRun_keepsToItself hsub hplain hdir, fun root report hreport => ?_⟩
  obtain ⟨runs, hruns, hlater, houtcomes⟩ := process_report hplain hreport
  intro o ho
  rw [houtcomes] at ho
  obtain ⟨result, hmem, rfl⟩ := List.mem_map.mp ho
  rw [hlater]
  exact filterRuns_standAlone hsub hplain hruns result hmem

open OneVote in
/-- The second of two runs fails. -/
theorem process_isolates_squatted : ∃ report,
    ((pipeline.process (.ofString "/")).run squatted).2.1 = .ok report ∧
      report.outcomes.map Outcome.isOk = [true, false] ∧
      (∀ o ∈ report.outcomes, ∃ place, pipeline.KeepsToItself o.run squatted place) ∧
      ∀ o ∈ report.outcomes,
        pipeline.StandsAlone squatted ((pipeline.process (.ofString "/")).run squatted).1 o := by
  have hreport : ((pipeline.process (.ofString "/")).run squatted).2.1.toOption.map
      (fun report => (report.outcomes.map Outcome.isOk,
        decide (∀ o ∈ report.outcomes, squatted.isDir o.run.path))) = some ([true, false], true) := by
    decide +kernel
  have hisolates := @process_isolates pipeline squatted (by decide +kernel) (by decide +kernel)
  cases hresult : ((pipeline.process (.ofString "/")).run squatted).2.1 with
  | error e =>
    rw [hresult] at hreport
    cases hreport
  | ok report =>
    rw [hresult] at hreport
    obtain ⟨hoks, hdirs⟩ := Prod.mk.inj (Option.some.inj hreport)
    exact ⟨report, rfl, hoks, fun o ho => hisolates.1 o.run (of_decide_eq_true hdirs o ho),
      hisolates.2 _ report hresult⟩

end Pipeline

end NodeLogs
