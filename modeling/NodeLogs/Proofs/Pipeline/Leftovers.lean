import NodeLogs.Proofs.Pipeline.Reference
import NodeLogs.Proofs.Tree.Devices

/-! Runs over what earlier ones have left. A file that a run opens holds the lines of this
run only, whatever was in it. But no file is ever removed: those of nodes from which nothing
is kept any more stay as they are. -/

namespace NodeLogs

namespace Outlet

theorem rendering_node (runName : Text) (es : List Entry) (n : Nat) (form : Form) :
    rendering runName es ⟨.node n, form⟩ =
      (es.filter fun e => e.node = n).flatMap fun e => e.line runName form := rfl

theorem rendering_all (runName : Text) (es : List Entry) (form : Form) :
    rendering runName es ⟨.all, form⟩ = es.flatMap fun e => e.line runName form := by
  have hall : es.filter (takes ⟨.all, form⟩) = es := List.filter_eq_self.mpr fun _ _ => rfl
  rw [rendering, hall]

end Outlet

namespace Pipeline

/-- The bytes of an output file of a run, if it is there. -/
def output? (pl : Pipeline) (run : Run) (disk : Disk) (x : Outlet) : Option Bytes :=
  disk.bytesOf? (x.path (run.outputDir pl.outSubdir))

/-- In the place to which the path of its outputs leads, the files of all nodes, and those of
the nodes from which a run keeps something, hold what it keeps and nothing older. The files of
other nodes are what they were, so that a node has files if something of it is kept or it had
some before. What is kept comes of the logs that the run opens, which are those that are found
below it if its directory was there. -/
structure Replaces (pl : Pipeline) (run : Run) (disk : Disk) (dir : Place) : Prop where
  logs : disk.isDir run.path → pl.entries run disk = pl.logEntries run disk
  leads : ((pl.filterRun run).run disk).1.LeadsTo (run.outputDir pl.outSubdir) dir
  counts : ((pl.filterRun run).run disk).2.1.counts.kept = (pl.entries run disk).length
  combined : ∀ form, pl.output? run ((pl.filterRun run).run disk).1 ⟨.all, form⟩ =
    some ((pl.entries run disk).flatMap fun e => e.line run.name form)
  kept : ∀ n form, (∃ e ∈ pl.entries run disk, e.node = n) →
    pl.output? run ((pl.filterRun run).run disk).1 ⟨.node n, form⟩ =
      some (((pl.entries run disk).filter fun e => e.node = n).flatMap fun e =>
        e.line run.name form)
  others : ∀ n form, (∀ e ∈ pl.entries run disk, e.node ≠ n) →
    pl.output? run ((pl.filterRun run).run disk).1 ⟨.node n, form⟩ =
      disk.bytesAt? (dir ++ [Outlet.name ⟨.node n, form⟩])
  there : ∀ n form, (pl.output? run ((pl.filterRun run).run disk).1 ⟨.node n, form⟩).isSome ↔
    (∃ e ∈ pl.entries run disk, e.node = n) ∨
      (disk.bytesAt? (dir ++ [Outlet.name ⟨.node n, form⟩])).isSome

/-- A run that reports no failure replaces the files that it opens, and leaves the others. -/
theorem filterRun_replaces {pl : Pipeline} {run : Run} {disk : Disk} (hplain : disk.Plain)
    (hdevices : disk.root.hasNoDevice) (hsub : pl.outSubdir.GoesDown)
    (hok : ((pl.filterRun run).run disk).2.1.error = none) : ∃ dir, pl.Replaces run disk dir := by
  have hopens := (pl.filterRun run).opensFiles hplain hdevices
  obtain ⟨hcomplete, -⟩ := complete_of_ok hplain hsub hopens hok
  obtain ⟨dir, hleads, hwritten, hsame⟩ := exists_outputs hplain hsub hopens hok
  have houtput (x : Outlet) : pl.output? run ((pl.filterRun run).run disk).1 x =
      ((pl.filterRun run).run disk).1.bytesAt? (dir ++ [x.name]) :=
    hleads.bytesOf?_outlet (hplain.run (pl.filterRun run)) x
  have hoccurs (n : Nat) (form : Form) : Outlet.Occurs (pl.entries run disk) ⟨.node n, form⟩ ↔
      ∃ e ∈ pl.entries run disk, e.node = n := by
    simp [Outlet.Occurs, eq_comm]
  have hkept (n : Nat) (form : Form) (h : ∃ e ∈ pl.entries run disk, e.node = n) :=
    (houtput ⟨.node n, form⟩).trans ((hwritten ⟨.node n, form⟩ ((hoccurs n form).mpr h)).trans
      (congrArg some (Outlet.rendering_node ..)))
  have hothers (n : Nat) (form : Form) (h : ¬ ∃ e ∈ pl.entries run disk, e.node = n) :
      pl.output? run ((pl.filterRun run).run disk).1 ⟨.node n, form⟩ =
        disk.bytesAt? (dir ++ [Outlet.name ⟨.node n, form⟩]) := by
    refine (houtput _).trans (hsame.bytesAt? fun x hx heq => h ((hoccurs n form).mp ?_))
    rwa [Outlet.name_injective (List.cons.inj (List.append_inj_right' heq rfl)).1]
  refine ⟨dir, fun hdir => ?_, hleads, congrArg Counts.kept hcomplete.counts, fun form => ?_, hkept,
    fun n form h => hothers n form ?_, fun n form => ?_⟩
  · obtain ⟨-, place, hrun⟩ := hplain.leadsTo_of_isDir hdir
    rw [entries, logEntries, filterRun_readings hplain hrun hok]
  · exact (houtput ⟨.all, form⟩).trans ((hwritten ⟨.all, form⟩ (.inl rfl)).trans
      (congrArg some (Outlet.rendering_all ..)))
  · rintro ⟨e, he, hn⟩
    exact h e he hn
  · by_cases h : ∃ e ∈ pl.entries run disk, e.node = n
    · rw [hkept n form h]
      simp [h]
    · rw [hothers n form h]
      simp [h]

end Pipeline

/-! ### A stricter run after another -/

namespace OneVote

/-- The disk when the vote has been kept. -/
def kept : Disk :=
  ((pipeline.filterRun run).run disk).1

/-- Only errors are kept. -/
def strict : Pipeline where
  selection := ⟨.ofKeywords ["Vote".toList], .ofList "ERROR".toList⟩
  outSubdir := .ofString "o"
  reach := 3

theorem kept_ready : kept.Plain ∧ kept.root.hasNoDevice ∧ kept.isDir run.path ∧
    strict.outSubdir.GoesDown := by
  decide +kernel

theorem strict_ok : ((strict.filterRun run).run kept).2.1.error = none := by
  decide +kernel

end OneVote

namespace Pipeline

open OneVote

theorem filterRun_replaces_strict :
    ((strict.filterRun run).run kept).2.1.error = none ∧
      ((strict.filterRun run).run kept).2.1.counts = ⟨1, 0⟩ ∧
      (strict.output? run kept ⟨.node 0, .json⟩).isSome ∧ ∃ dir, strict.Replaces run kept dir := by
  obtain ⟨hplain, hdevices, -, hsub⟩ := kept_ready
  exact ⟨strict_ok, by decide +kernel, by decide +kernel,
    filterRun_replaces hplain hdevices hsub strict_ok⟩

/-- The files present are not just those of the nodes from which something is kept: the
stricter run keeps nothing, but the file of the vote's node is still there. -/
theorem filterRun_not_only_kept :
    kept.Plain ∧ kept.root.hasNoDevice ∧ kept.isDir run.path ∧ strict.outSubdir.GoesDown ∧
      ((strict.filterRun run).run kept).2.1.error = none ∧
      ¬ ∀ n form, (strict.output? run ((strict.filterRun run).run kept).1 ⟨.node n, form⟩).isSome ↔
        ∃ e ∈ strict.logEntries run kept, e.node = n := by
  obtain ⟨hplain, hdevices, hdir, hsub⟩ := kept_ready
  refine ⟨hplain, hdevices, hdir, hsub, strict_ok, fun h => ?_⟩
  have hthere : (strict.output? run ((strict.filterRun run).run kept).1 ⟨.node 0, .json⟩).isSome := by
    decide +kernel
  have hnone : ∀ e ∈ strict.logEntries run kept, e.node ≠ 0 := by decide +kernel
  obtain ⟨e, he, hn⟩ := (h 0 .json).mp hthere
  exact hnone e he hn

end Pipeline

end NodeLogs
