import NodeLogs.Proofs.Discovery.Choice
import NodeLogs.Proofs.Output.Echo
import NodeLogs.Proofs.Pipeline.Separate
import NodeLogs.Proofs.Pipeline.Texts
import NodeLogs.Proofs.Tree.Remade

/-! All runs again. On the tree that was left the first time the search finds the same runs,
each of them comes to the same, whether it fails or not, and in the end the tree is as it was:
as long as outputs go below the runs and no write is refused, either time. -/

namespace NodeLogs

namespace Pipeline

variable {pl : Pipeline} {run : Run} {disk other : Disk}

/-! ### One run -/

/-- On a tree with the outputs that they have come to, outputs come to the same when they are
filled again, and the tree stays as it is. -/
theorem fillWalking_again {first : Disk} (hfirst : first.Plain) (hdir : first.isDir run.path)
    {place : Place} (hplain : disk.Plain) (hsame : first.SameLogs disk)
    (hout : disk.LeadsTo (run.outputDir pl.outSubdir) place) (hplain' : other.Plain)
    (hsame' : first.SameLogs other) (hout' : other.LeadsTo (run.outputDir pl.outSubdir) place)
    (hfiles : ∀ x : Outlet, other.root.at? (place ++ [x.name]) =
      ((pl.fillWalking run).run disk).1.root.at? (place ++ [x.name]))
    (hok : (pl.fillWalking run).Accepted disk) (hok' : (pl.fillWalking run).Accepted other) :
    ((pl.fillWalking run).run other).2 = ((pl.fillWalking run).run disk).2 ∧
      ((pl.fillWalking run).run other).1.root = other.root := by
  have hmirrors : Work.Mirrors disk (pl.fillWalking run) (pl.fillFrom run first) :=
    fillWalking_mirrors hfirst hdir hsame hplain
  have hmirrors' : Work.Mirrors other (pl.fillWalking run) (pl.fillFrom run first) :=
    fillWalking_mirrors hfirst hdir hsame' hplain'
  have hechoes : Disk.Echoes other.root (fun _ => False) disk.blind other.blind :=
    ⟨⟨hplain.cwd, hplain.tree⟩, ⟨hplain'.cwd, hplain'.tree⟩, rfl, fun _ => False.elim,
      fun _ _ => rfl⟩
  have hagain := (pl.fillFrom_own run first fun _ => False).again hechoes
    ⟨hout.no_zero, hout.go_eq, hout.hasDir⟩ ⟨hout'.no_zero, hout'.go_eq, hout'.hasDir⟩
    (fun _ => False.elim) (by rw [hmirrors.run]; exact hfiles) (hmirrors.accepted hok)
    (hmirrors'.accepted hok')
  rwa [hmirrors.run, hmirrors'.run] at hagain

/-- On what a run has left, it comes to the same again, and leaves the tree as it is. -/
theorem filterRun_again (hsub : pl.outSubdir.GoesDown) (hplain : disk.Plain)
    (hne : run.path.bytes ≠ []) {place : Place} (hrun : disk.LeadsTo run.path place)
    (hplain' : other.Plain) (hsame : ((pl.filterRun run).run disk).1.SameLogs other)
    (hbelow : other.root.at? place = ((pl.filterRun run).run disk).1.root.at? place)
    (hok : (pl.filterRun run).Accepted disk) (hok' : (pl.filterRun run).Accepted other) :
    ((pl.filterRun run).run other).2 = ((pl.filterRun run).run disk).2 ∧
      ((pl.filterRun run).run other).1.root = other.root := by
  have hlogs : disk.SameLogs other := (filterRun_sameLogs hplain).trans hsame
  obtain ⟨S, hu⟩ := hlogs.updates
  have hrun' := hrun.keeps hplain hplain' hu
  let make := Work.makeAllDirs (run.outputDir pl.outSubdir)
  have hmake : make.run disk = ((make.run disk).1, (make.run disk).2) := rfl
  cases hmade : (make.run disk).2 with
  | error e =>
    -- The directory could not be made, and nothing else was done.
    rw [hmade] at hmake
    have hfirst := filterRun_unmade hmake
    rw [hfirst] at hbelow ⊢
    have hagain : make.run other = (other, (make.run disk).2) :=
      Work.makeAllDirs_again hplain hrun hne hsub hplain' hrun' fun r => by
        rw [Node.at?_append, Node.at?_append, hbelow]
        rfl
    rw [filterRun_unmade (hagain.trans (congrArg (other, ·) hmade))]
    exact ⟨rfl, rfl⟩
  | ok u =>
    rw [hmade] at hmake
    have hfirst := filterRun_made hmake
    have hok := accepted_made hmake hok
    have hmadePlain : (make.run disk).1.Plain := hplain.run make
    have hmadeLogs : disk.SameLogs (make.run disk).1 :=
      ⟨(Work.makeAllDirs_onlyDirs _).sameFiles hplain.cwd _, _, make.run_updates hplain.cwd⟩
    have hout := Work.makeAllDirs_leadsTo hplain hrun hne hsub hmade
    have hrest := (pl.fillWalking run).run_updates hmadePlain.cwd
    rw [← hfirst] at hrest
    have hout' := (hout.keeps hmadePlain (hplain.run (pl.filterRun run)) hrest).keeps
      (hplain.run (pl.filterRun run)) hplain' hsame.updates.choose_spec
    have hmake' := Work.makeAllDirs_of_isDir hplain' hrun' hne hsub
      (hout'.isDir hplain' (Path.join_ne_nil hne hsub.isAbsolute))
    rw [filterRun_made hmake', hfirst]
    rw [hfirst] at hbelow
    exact fillWalking_again hplain (hrun.isDir hplain hne) hmadePlain hmadeLogs hout hplain' hlogs hout'
      (fun x => by rw [List.append_assoc, Node.at?_append, Node.at?_append, hbelow]) hok
      (accepted_made hmake' hok')

/-! ### All runs -/

section Runs

variable {runs : List Run}

theorem filterRuns_sameLogs (runs : List Run) (hplain : disk.Plain) :
    disk.SameLogs ((pl.filterRuns runs).run disk).1 := by
  induction runs generalizing disk with
  | nil => exact .refl disk
  | cons run runs ih =>
    rw [filterRuns_cons]
    exact (filterRun_sameLogs hplain).trans (ih (hplain.run (pl.filterRun run)))

/-- Runs that are apart come to the same again, each on what it has left below it. -/
theorem filterRuns_again (hsub : pl.outSubdir.GoesDown) (hplain : disk.Plain)
    (hruns : disk.Parts runs) (hplain' : other.Plain)
    (hsame : ((pl.filterRuns runs).run disk).1.SameLogs other)
    (hbelow : ∀ run ∈ runs, ∀ place, disk.LeadsTo run.path place →
      other.root.at? place = ((pl.filterRuns runs).run disk).1.root.at? place)
    (hok : (pl.filterRuns runs).Accepted disk) (hok' : (pl.filterRuns runs).Accepted other) :
    ((pl.filterRuns runs).run other).2 = ((pl.filterRuns runs).run disk).2 ∧
      ((pl.filterRuns runs).run other).1.root = other.root := by
  induction runs generalizing disk other with
  | nil => exact ⟨rfl, rfl⟩
  | cons run runs ih =>
    obtain ⟨hne, place, hrun⟩ := hruns.leadsTo run List.mem_cons_self
    have hrest := hruns.sublist (List.sublist_cons_self run runs)
    have hfirst := hplain.run (pl.filterRun run)
    have hu := (pl.filterRun run).run_updates hplain.cwd
    have hrest' := hrest.keeps hplain hfirst hu
    have hplace := hbelow run List.mem_cons_self place hrun
    obtain ⟨hok₁, hok₂⟩ := Work.accepted_bind.mp hok
    obtain ⟨hok₁', hok₂'⟩ := Work.accepted_bind.mp hok'
    replace hok₂ := (Work.accepted_bind.mp hok₂).1
    replace hok₂' := (Work.accepted_bind.mp hok₂').1
    rw [filterRuns_cons] at hsame hplace hbelow ⊢
    -- The later runs have left alone what this one has left below it.
    have hapart := filterRuns_sameBelow hsub hfirst hrest' fun run' hrun' place' hplace' =>
      List.rel_of_pairwise_cons hruns.apart hrun' place place' hrun
        (hrest.leadsTo_of hplain hfirst hu hrun' hplace')
    obtain ⟨hresult, hroot⟩ := filterRun_again hsub hplain hne hrun hplain'
      ((filterRuns_sameLogs runs hfirst).trans hsame) (hplace.trans hapart.node) hok₁ hok₁'
    have hrestAgain := ih hfirst hrest' (hplain'.run (pl.filterRun run))
      (hsame.trans (filterRun_sameLogs hplain')) (fun run' hrun' place' hplace' => ?_) hok₂ hok₂'
    · rw [filterRuns_cons, hresult, hrestAgain.1, hrestAgain.2, hroot]
      exact ⟨rfl, rfl⟩
    · rw [hroot]
      exact hbelow run' (List.mem_cons_of_mem _ hrun') place'
        (hrest.leadsTo_of hplain hfirst hu hrun' hplace')

end Runs

/-- On a plain disk, where outputs go below the runs, all comes to the same when it is done
again: the same runs in the same order, with the same counts and failures, and the same is
told. The tree stays as the first time has left it. -/
theorem process_again (hsub : pl.outSubdir.GoesDown) (hplain : disk.Plain) (root : Path)
    (hok : (pl.process root).Accepted disk)
    (hok' : (pl.process root).Accepted ((pl.process root).run disk).1) :
    ((pl.process root).run ((pl.process root).run disk).1).2 = ((pl.process root).run disk).2 ∧
      ((pl.process root).run ((pl.process root).run disk).1).1.root =
        ((pl.process root).run disk).1.root := by
  cases hfound : ((discover pl.reach pl.hints root).run disk).2 with
  | error e =>
    rw [process_unfound hfound, process_unfound hfound]
    exact ⟨rfl, rfl⟩
  | ok found =>
    obtain ⟨runs, notices⟩ := found
    have hparts := (discover_finds hplain pl.reach pl.hints root).run.1
    rw [hfound] at hparts
    have hroot : disk.isDir root := by
      unfold discover at hfound
      rw [Work.run_bind, Work.run_isDir] at hfound
      cases hdir : disk.isDir root with
      | true => rfl
      | false =>
        rw [hdir] at hfound
        cases hfound
    have hfirst := process_found hfound
    have hplain' := hplain.run (pl.filterRuns runs)
    have hsame : disk.SameLogs ((pl.filterRuns runs).run disk).1 := filterRuns_sameLogs runs hplain
    have hfound' := (discover_congr hplain hplain' hsame pl.reach pl.hints hroot).trans hfound
    rw [hfirst] at hok' ⊢
    rw [process_found hfound']
    obtain ⟨hresults, htree⟩ := filterRuns_again hsub hplain hparts hplain' (.refl _)
      (fun _ _ _ _ => rfl) (accepted_found hfound hok) (accepted_found hfound' hok')
    rw [hresults]
    exact ⟨rfl, htree⟩

end Pipeline

/-! ### A run that fails both times -/

namespace OneVote

/-- In the second of two runs a directory has the name of an output file. -/
def squatted : Disk :=
  { disk with
    root := .dir [(name "a", disk.root), (name "b",
      .dir ((name "o", .dir [(name "all_nodes.log", .dir [])]) :: disk.root.entries))] }

end OneVote

namespace Pipeline

open OneVote

theorem process_again_squatted : ∃ report,
    ((pipeline.process (.ofString "/")).run squatted).2.1 = .ok report ∧
      report.outcomes.map Outcome.isOk = [true, false] ∧
      ((pipeline.process (.ofString "/")).run
        ((pipeline.process (.ofString "/")).run squatted).1).2 =
          ((pipeline.process (.ofString "/")).run squatted).2 ∧
      ((pipeline.process (.ofString "/")).run
        ((pipeline.process (.ofString "/")).run squatted).1).1.root =
          ((pipeline.process (.ofString "/")).run squatted).1.root := by
  have hreport : ((pipeline.process (.ofString "/")).run squatted).2.1.toOption.map
      (fun report => report.outcomes.map Outcome.isOk) = some [true, false] := by decide +kernel
  cases hresult : ((pipeline.process (.ofString "/")).run squatted).2.1 with
  | error e =>
    rw [hresult] at hreport
    cases hreport
  | ok report =>
    rw [hresult] at hreport
    exact ⟨report, rfl, Option.some.inj hreport, process_again (by decide +kernel)
      (by decide +kernel) (.ofString "/") (by decide +kernel) (by decide +kernel)⟩

end Pipeline

end NodeLogs
