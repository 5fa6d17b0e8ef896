import NodeLogs.Pipeline.Run
import NodeLogs.Proofs.Output.Ending
import NodeLogs.Proofs.Pipeline.Logs

/-! The course of a run. Its writer is made first, and if that is refused the run is over. With
the writer it walks through its logs. In the end the writer is finished, or let go of if output
has failed; either way nothing more is opened. -/

namespace NodeLogs

namespace Pipeline

section Parts

variable (pl : Pipeline) (run : Run)

/-- The way of a run through its logs, with a new writer. -/
def takeAll (writer : Writer) : Work Progress :=
  Walk.walk (Walk.takeLogs pl.selection) pl.reach run.path { writer }

/-- How a run ends when it has taken in all that it takes. -/
def conclude (p : Progress) : Work (Outcome × List Notice) :=
  match p.failure with
  | some e => do
    p.writer.release
    return (pl.outcome run p.counts (some (.sink e)), p.notices.reverse)
  | none => do
    let failure ← p.writer.finish
    return (pl.outcome run p.counts (failure.map .sink), p.notices.reverse)

theorem filterRun_parts :
    pl.filterRun run = Writer.create (run.outputDir pl.outSubdir) run.name >>= fun
      | .error e => pure (pl.outcome run {} (some (.sink e)), [])
      | .ok writer => pl.takeAll run writer >>= pl.conclude run :=
  rfl

end Parts

variable {pl : Pipeline} {run : Run} {disk : Disk}

/-! ### A run without a writer -/

section Refused

variable {made : Disk} {failure : SinkError}
  (hrefused : (Writer.create (run.outputDir pl.outSubdir) run.name).run disk =
    (made, .error failure))
include hrefused

theorem filterRun_refused :
    (pl.filterRun run).run disk = (made, pl.outcome run {} (some (.sink failure)), []) := by
  rw [filterRun_parts, Work.run_rest hrefused]
  rfl

theorem opened_of_refused : (pl.filterRun run).opened disk = [] := by
  rw [filterRun_parts, Work.opened_rest hrefused, (Writer.create_opensNoLog _ _).opened_eq]
  rfl

end Refused

/-! ### How a run ends -/

section Ends

variable {p : Progress}

theorem conclude_of_going (h : p.failure = none) :
    pl.conclude run p = p.writer.finish >>= fun failure =>
      pure (pl.outcome run p.counts (failure.map .sink), p.notices.reverse) := by
  unfold conclude
  rw [h]

theorem conclude_of_stopped {e : SinkError} (h : p.failure = some e) :
    pl.conclude run p = p.writer.release >>= fun _ =>
      pure (pl.outcome run p.counts (some (.sink e)), p.notices.reverse) := by
  unfold conclude
  rw [h]

theorem conclude_created : (pl.conclude run p).created disk = [] := by
  cases h : p.failure with
  | none =>
    rw [conclude_of_going h, Work.created_bind, p.writer.finish_writesTo.created_eq]
    rfl
  | some e =>
    rw [conclude_of_stopped h, Work.created_bind, p.writer.release_writesTo.created_eq]
    rfl

theorem conclude_opened : (pl.conclude run p).opened disk = [] := by
  cases h : p.failure with
  | none =>
    rw [conclude_of_going h, Work.opened_bind, p.writer.finish_writesTo.opensNoLog.opened_eq]
    rfl
  | some e =>
    rw [conclude_of_stopped h, Work.opened_bind, p.writer.release_writesTo.opensNoLog.opened_eq]
    rfl

end Ends

/-! ### A run with a writer -/

/-- A run has made its writer, and with that it has walked through its logs. -/
structure Course (pl : Pipeline) (run : Run) (disk made later : Disk) (w : Writer)
    (p : Progress) : Prop where
  create : (Writer.create (run.outputDir pl.outSubdir) run.name).run disk = (made, .ok w)
  walk : (pl.takeAll run w).run made = (later, p)

theorem create_opensOwn {taken : Path → Place → Prop}
    (hown : (pl.filterRun run).OpensOwn disk taken) :
    (Writer.create (run.outputDir pl.outSubdir) run.name).OpensOwn disk taken := by
  rw [filterRun_parts] at hown
  exact hown.left

theorem create_granted (h : (pl.filterRun run).Granted disk) :
    (Writer.create (run.outputDir pl.outSubdir) run.name).Granted disk := by
  rw [filterRun_parts] at h
  exact (Work.granted_bind.mp h).1

theorem exists_course {made : Disk} {w : Writer}
    (hcreate : (Writer.create (run.outputDir pl.outSubdir) run.name).run disk = (made, .ok w)) :
    ∃ later p, pl.Course run disk made later w p :=
  ⟨_, _, hcreate, rfl⟩

namespace Course

variable {made later : Disk} {w : Writer} {p : Progress} (h : pl.Course run disk made later w p)
include h

theorem run_eq : (pl.filterRun run).run disk = (pl.conclude run p).run later := by
  rw [filterRun_parts, Work.run_rest h.create]
  exact Work.run_rest h.walk

theorem run_of_going (hgoing : p.failure = none) : (pl.filterRun run).run disk =
    ((p.writer.finish.run later).1,
      pl.outcome run p.counts ((p.writer.finish.run later).2.map .sink), p.notices.reverse) := by
  rw [h.run_eq, conclude_of_going hgoing, Work.run_bind, Work.run_pure]

theorem run_of_stopped {e : SinkError} (hstopped : p.failure = some e) :
    (pl.filterRun run).run disk = ((p.writer.release.run later).1,
      pl.outcome run p.counts (some (.sink e)), p.notices.reverse) := by
  rw [h.run_eq, conclude_of_stopped hstopped, Work.run_bind, Work.run_pure]

theorem created_eq : (pl.filterRun run).created disk =
    (Writer.create (run.outputDir pl.outSubdir) run.name).created disk ++
      (pl.takeAll run w).created made := by
  rw [filterRun_parts, Work.created_rest h.create]
  dsimp only
  rw [Work.created_rest h.walk, conclude_created, List.append_nil]

theorem opened_eq : (pl.filterRun run).opened disk = (pl.takeAll run w).opened made := by
  rw [filterRun_parts, Work.opened_rest h.create, (Writer.create_opensNoLog _ _).opened_eq]
  dsimp only
  rw [Work.opened_rest h.walk, conclude_opened, List.nil_append, List.append_nil]

/-- With its writer made, a run goes on to where it ends. -/
theorem updates (hcwd : made.HasCwd) :
    ∃ S, Disk.Updates S made ((pl.filterRun run).run disk).1 := by
  rw [filterRun_parts, Work.run_rest h.create]
  exact ⟨_, Work.run_updates _ hcwd⟩

theorem granted (hok : (pl.filterRun run).Granted disk) :
    (pl.takeAll run w).Granted made ∧ (pl.conclude run p).Granted later := by
  rw [filterRun_parts] at hok
  exact (Work.granted_rest h.walk).mp ((Work.granted_rest h.create).mp hok).2

theorem accepted (hok : (pl.filterRun run).Accepted disk) :
    (pl.takeAll run w).Accepted made ∧ (pl.conclude run p).Accepted later := by
  rw [filterRun_parts] at hok
  exact (Work.accepted_rest h.walk).mp ((Work.accepted_rest h.create).mp hok).2

/-- The files that are opened on the way are apart from those of the new writer. -/
theorem opensOwn {taken : Path → Place → Prop} (hown : (pl.filterRun run).OpensOwn disk taken) :
    (pl.takeAll run w).OpensOwn made fun q place => taken q place ∨
      ∃ e ∈ (Writer.create (run.outputDir pl.outSubdir) run.name).created disk,
        e.1 ≠ q ∧ e.2.place = place := by
  rw [filterRun_parts] at hown
  exact (Work.OpensOwn.rest h.create hown).left

end Course

/-- A run that does not fail has a writer, takes all in and finishes well. -/
theorem exists_course_of_ok (hok : ((pl.filterRun run).run disk).2.1.error = none) :
    ∃ made later w p, pl.Course run disk made later w p ∧ p.failure = none ∧
      (p.writer.finish.run later).2 = none ∧
      (pl.filterRun run).run disk = ((p.writer.finish.run later).1,
        pl.outcome run p.counts none, p.notices.reverse) := by
  cases hcreate : (Writer.create (run.outputDir pl.outSubdir) run.name).run disk with
  | mk made result =>
  cases result with
  | error e =>
    rw [filterRun_refused hcreate] at hok
    cases hok
  | ok w =>
    obtain ⟨later, p, hcourse⟩ := exists_course hcreate
    have hgoing : p.failure = none := by
      cases hfailure : p.failure with
      | none => rfl
      | some e =>
        rw [hcourse.run_of_stopped hfailure] at hok
        cases hok
    have hrun := hcourse.run_of_going hgoing
    have hfinished : (p.writer.finish.run later).2 = none := by
      rw [hrun] at hok
      exact Option.map_eq_none_iff.mp hok
    rw [hfinished] at hrun
    exact ⟨made, later, w, p, hcourse, hgoing, hfinished, hrun⟩

end Pipeline

end NodeLogs
