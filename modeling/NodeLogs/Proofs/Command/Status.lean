import NodeLogs.Command.Execute
import NodeLogs.Proofs.Pipeline.Together
import NodeLogs.Proofs.Settings.Loading
import NodeLogs.Proofs.Settings.Merging

/-! How the command ends. Its settings are looked at first, then its root, and only then is
anything written. All runs that are found are worked through, and the exit status tells
whether one of them has failed. What is overridden in the settings file bears on none of it. -/

namespace NodeLogs

namespace Pipeline

/-! ### All runs -/

variable (pl : Pipeline) (runs : List Run)

/-- Each run is filtered on the disk that those before it have left, however these ended. -/
theorem filterRuns_getElem? (disk : Disk) {k : Nat} {run : Run} (h : runs[k]? = some run) :
    ((pl.filterRuns runs).run disk).2[k]? =
      some ((pl.filterRun run).run ((pl.filterRuns (runs.take k)).run disk).1).2 := by
  induction runs generalizing disk k with
  | nil => simp at h
  | cons first runs ih =>
    rw [filterRuns_cons]
    cases k with
    | zero =>
      rw [List.getElem?_cons_zero, Option.some.injEq] at h
      subst h
      rfl
    | succ k =>
      rw [List.getElem?_cons_succ] at h ⊢
      rw [ih _ h, List.take_succ_cons, filterRuns_cons]

/-- However their calls are answered, tasks leave a result for each run. -/
theorem tasks_end {left : List Joined}
    (h : List.Forall₂ (fun run joined => (pl.task run).Leaves (.done joined)) runs left) :
    ∃ results, left.map some = filledWith results ∧
      List.Forall₂ (fun run result => (pl.filterRun run).Leaves (.done result)) runs results := by
  induction h with
  | nil => exact ⟨[], rfl, .nil⟩
  | cons hend _ ih =>
    obtain ⟨result, rfl, hresult⟩ := pl.task_ends _ hend
    obtain ⟨results, hleft, hresults⟩ := ih
    exact ⟨result :: results, congrArg (_ :: ·) hleft, .cons hresult hresults⟩

end Pipeline

namespace Command

/-- The exit status for outcomes: it tells whether a run has failed. -/
def statusOf (outcomes : List Outcome) : Nat :=
  if ∃ o ∈ outcomes, o.error ≠ none then 1 else 0

theorem conclude_status (report : Report) (notices : List Notice) :
    (conclude report notices).status = statusOf report.outcomes := by
  have hfailures : report.failures = [] ↔ ¬ ∃ o ∈ report.outcomes, o.error ≠ none := by
    simp [Report.failures, Outcome.isOk, List.filter_eq_nil_iff, Option.isNone_iff_eq_none]
  unfold conclude statusOf
  cases hcase : report.failures with
  | nil =>
    rw [if_neg (hfailures.mp hcase)]
    rfl
  | cons o rest =>
    have hsome : ∃ o ∈ report.outcomes, o.error ≠ none := by
      by_contra hnone
      rw [hfailures.mpr hnone] at hcase
      cases hcase
    rw [if_pos hsome]
    rfl

/-- The pipeline that settings make. -/
def pipeline (reach : Nat) (settings : Settings) : Pipeline where
  selection := ⟨.consensus, settings.levels⟩
  outSubdir := Path.ofText settings.outSubdir
  hints := settings.hints
  reach

/-- Runs whose calls are made in turns, in whatever order: they go on until all is over, though
not for ever. Then each has come to one of the ends that its work can have, and the status tells
whether one has failed. -/
structure EndsInTurns (pl : Pipeline) (jobs : Nat) (runs : List Run) (later : Disk)
    (pool : Pool Pipeline.Joined) : Prop where
  goesOn : pool.isOver = false → ∃ next, Pool.Step jobs (later, pool) next
  ends : Acc (fun next s => Pool.Step jobs s next) (later, pool)
  all : pool.isOver → ∃ results, pool.slots = Pipeline.filledWith results ∧
    List.Forall₂ (fun run result => (pl.filterRun run).Leaves (.done result)) runs results
  outcomes : pool.isOver → (pl.reportOf runs pool).outcomes.map Outcome.run = runs
  status : pool.isOver → ∀ notices, (conclude (pl.reportOf runs pool) notices).status =
    statusOf (pl.reportOf runs pool).outcomes

theorem endsInTurns {pl : Pipeline} {jobs : Nat} {runs : List Run} {disk later : Disk}
    {pool : Pool Pipeline.Joined}
    (h : Pool.Reaches jobs (disk, pl.pool runs) (later, pool)) :
    EndsInTurns pl jobs runs later pool := by
  have htidy := h.tidy (Pool.tidy_ofWork jobs (runs.map pl.task))
  have hall (hover : pool.isOver) : ∃ results, pool.slots = Pipeline.filledWith results ∧
      List.Forall₂ (fun run result => (pl.filterRun run).Leaves (.done result)) runs results := by
    obtain ⟨left, hslots, hends⟩ := htidy.results hover
    obtain ⟨results, hleft, hresults⟩ := pl.tasks_end runs (List.forall₂_map_left_iff.mp hends)
    exact ⟨results, hslots.trans hleft, hresults⟩
  refine ⟨fun hover => htidy.exists_step hover later, (Pool.step_wellFounded jobs).apply _, hall,
    fun hover => ?_, fun _ => conclude_status _⟩
  obtain ⟨results, hslots, hends⟩ := hall hover
  have hruns : List.Forall₂ (fun run result => run = result.1.run) runs results :=
    hends.imp fun run result hend => by
      obtain ⟨counts, failure, heq⟩ := pl.filterRun_ends run hend
      rw [heq]
      rfl
  have hmap := List.forall₂_eq_eq_eq ▸ List.forall₂_map_right_iff.mpr hruns
  rw [Pipeline.reportOf, hslots, pl.settle_filledWith runs hends.length_eq, List.map_map]
  exact hmap.symm

/-! ### From the settings on -/

/-- How a command ends that has found runs: each is worked through on the disk that those before
it have left, whatever became of them, and the status tells whether one has failed. It is the
same if they are worked through several at a time, with their calls in any order. -/
structure WorksThrough (pl : Pipeline) (jobs : Nat) (runs : List Run) (disk later : Disk)
    (status : Nat) : Prop where
  later : later = ((pl.filterRuns runs).run disk).1
  all : ∀ k run, runs[k]? = some run → ((pl.filterRuns runs).run disk).2[k]? =
    some ((pl.filterRun run).run ((pl.filterRuns (runs.take k)).run disk).1).2
  outcomes : (((pl.filterRuns runs).run disk).2.map Prod.fst).map Outcome.run = runs
  status : status = statusOf (((pl.filterRuns runs).run disk).2.map Prod.fst)
  turns : ∀ later pool, Pool.Reaches jobs (disk, pl.pool runs) (later, pool) →
    EndsInTurns pl jobs runs later pool

/-- How a command ends whose settings are settled. -/
def WorksBelow (reach : Nat) (settings : Settings) (root : Path) (disk later : Disk)
    (status : Nat) : Prop :=
  match ((discover reach settings.hints root).run disk).2 with
  | .error _ => later = disk ∧ status = 1
  | .ok (runs, _) => WorksThrough (pipeline reach settings) settings.jobs runs disk later status

section Work

variable (reach : Nat) {root : Path} (settings : Settings) {disk : Disk}

theorem work_rootless (h : disk.isDir root = false) :
    ((work reach root settings).run disk).1 = disk ∧
      ((work reach root settings).run disk).2.status = 2 := by
  have hfound := (discover_looks disk reach settings.hints root).run.1
  rw [if_neg (by simp [h])] at hfound
  have hrun := (pipeline reach settings).processTogether_unfound hfound settings.jobs
  simp only [pipeline] at hrun
  simp only [work, Work.run_bind, hrun, Work.run_pure]
  exact ⟨trivial, rfl⟩

theorem work_worksBelow (h : disk.isDir root) :
    WorksBelow reach settings root disk ((work reach root settings).run disk).1
      ((work reach root settings).run disk).2.status := by
  have hlooks := (discover_looks disk reach settings.hints root).run.1
  rw [if_pos h] at hlooks
  unfold WorksBelow
  cases hfound : ((discover reach settings.hints root).run disk).2 with
  | error e =>
    have hrun := (pipeline reach settings).processTogether_unfound hfound settings.jobs
    simp only [pipeline] at hrun
    cases e with
    | notADirectory p => exact absurd hfound (hlooks p)
    | unlisted p e =>
      simp only [work, Work.run_bind, hrun, Work.run_pure]
      exact ⟨trivial, rfl⟩
  | ok found =>
    obtain ⟨runs, notices⟩ := found
    let pl := pipeline reach settings
    have hrun := pl.processTogether_found hfound settings.jobs
    have hwork : ∃ told, (work reach root settings).run disk = (((pl.filterRuns runs).run disk).1,
        conclude { outcomes := ((pl.filterRuns runs).run disk).2.map Prod.fst } told) := by
      simp only [pl, pipeline] at hrun
      simp only [work, Work.run_bind, hrun, Work.run_pure]
      exact ⟨_, rfl⟩
    obtain ⟨told, hwork⟩ := hwork
    rw [hwork]
    exact
      { later := rfl
        all := fun k run => pl.filterRuns_getElem? runs disk
        outcomes := by rw [List.map_map]; exact pl.filterRuns_runs runs disk
        status := conclude_status _ told
        turns := fun _ _ => endsInTurns }

end Work

/-! ### The whole command -/

/-- Leaves only the notices that are shown. -/
def Result.shown (threshold : Threshold) : Result → Result
  | .ended status notices failure => .ended status (notices.filter threshold.shows) failure
  | other => other

theorem Result.status_shown (threshold : Threshold) (r : Result) :
    (r.shown threshold).status = r.status := by
  cases r <;> rfl

/-- What a command does once its settings file has been read. -/
def carryOn (reach : Nat) (env : Environment) (a : Arguments) :
    Except LoadError FileSettings → Work Result
  | .error e => pure (.ended 1 [] (some (failureLine (e.message :: e.cause?.toList))))
  | .ok file =>
    match Settings.resolve (overridesWith env a.overrides) file with
    | .error e => pure (.ended 1 [] (some (failureLine [e.message.toList])))
    | .ok settings => work reach a.root settings

section Run

variable {reach : Nat} {env : Environment} {args : List Bytes} {a : Arguments}

theorem execute_eq : execute reach env a = loadFile a.config >>= carryOn reach env a := by
  unfold execute
  congr

theorem run_eq (hargs : parse args = .work a) : run reach env args =
    loadFile a.config >>= fun loaded => carryOn reach env a loaded >>= fun r =>
      pure (r.shown (Threshold.choose env.log a.verbose)) := by
  unfold run
  rw [hargs]
  simp only [execute_eq, bind_assoc]
  congr
  funext loaded
  congr
  funext r
  cases r <;> rfl

/-- What comes of a command by what came of its settings file. -/
def endFrom (reach : Nat) (env : Environment) (a : Arguments)
    (loaded : Disk × Except LoadError FileSettings) : Disk × Result :=
  let ended := (carryOn reach env a loaded.2).run loaded.1
  (ended.1, ended.2.shown (Threshold.choose env.log a.verbose))

theorem run_run (hargs : parse args = .work a) (disk : Disk) :
    (run reach env args).run disk = endFrom reach env a ((loadFile a.config).run disk) := by
  rw [run_eq hargs]
  simp only [Work.run_bind, Work.run_pure, endFrom]

theorem loadFile_sameTree (config : Option Path) (disk : Disk) :
    disk.SameTree ((loadFile config).run disk).1 := by
  cases config with
  | none => exact .refl disk
  | some p => exact (FileSettings.load_onlyReads p).sameTree disk

/-- What a settings file says, if there is one. -/
def fileContents (config : Option Path) (disk : Disk) : Except LoadError FileSettings :=
  match config with
  | some p => FileSettings.ofContents p (disk.contents p)
  | none => .ok {}

theorem loadFile_run (config : Option Path) (disk : Disk)
    (hfull : ∀ p ∈ config, disk.node p ≠ .ok (.device .full)) :
    ((loadFile config).run disk).2 = fileContents config disk := by
  cases config with
  | none => rfl
  | some p => exact FileSettings.load_run p disk (hfull p rfl)

/-- How a command ends, by what came of its settings file, which is looked at first. -/
structure Exits (reach : Nat) (o : Overrides) (root : Path)
    (loaded : Disk × Except LoadError FileSettings) (later : Disk) (status : Nat) : Prop where
  unread : ∀ e, loaded.2 = .error e → later = loaded.1 ∧ status = 1
  refused : ∀ file, loaded.2 = .ok file → o.Refuses file → later = loaded.1 ∧ status = 1
  rootless : ∀ file, loaded.2 = .ok file → ¬ o.Refuses file → loaded.1.isDir root = false →
    later = loaded.1 ∧ status = 2
  works : ∀ file, loaded.2 = .ok file → ¬ o.Refuses file → loaded.1.isDir root →
    ∃ settings, Settings.resolve o file = .ok settings ∧
      WorksBelow reach settings root loaded.1 later status

theorem carryOn_exits (loaded : Disk × Except LoadError FileSettings) :
    Exits reach (overridesWith env a.overrides) a.root loaded
      ((carryOn reach env a loaded.2).run loaded.1).1
      ((carryOn reach env a loaded.2).run loaded.1).2.status := by
  obtain ⟨disk, e | file⟩ := loaded
  · exact ⟨fun _ _ => ⟨rfl, rfl⟩, nofun, nofun, nofun⟩
  dsimp only
  by_cases hrefuses : (overridesWith env a.overrides).Refuses file
  · obtain ⟨e, he⟩ := Settings.resolve_of_refuses hrefuses
    have hend : (carryOn reach env a (.ok file)).run disk =
        (disk, .ended 1 [] (some (failureLine [e.message.toList]))) := by
      simp only [carryOn, he, Work.run_pure]
    rw [hend]
    refine ⟨nofun, fun _ _ _ => ⟨rfl, rfl⟩, ?_, ?_⟩
    · rintro _ ⟨⟩ hnot
      exact absurd hrefuses hnot
    · rintro _ ⟨⟩ hnot
      exact absurd hrefuses hnot
  · have hsettings := Settings.resolve_of_not_refuses hrefuses
    generalize Settings.mk _ _ _ _ = settings at hsettings
    have hend : carryOn reach env a (.ok file) = work reach a.root settings := by
      simp only [carryOn, hsettings]
    rw [hend]
    refine ⟨nofun, ?_, ?_, ?_⟩
    · rintro _ ⟨⟩ hyes
      exact absurd hyes hrefuses
    · rintro _ ⟨⟩ - hroot
      exact work_rootless reach settings hroot
    · rintro _ ⟨⟩ - hroot
      exact ⟨settings, hsettings, work_worksBelow reach settings hroot⟩

theorem carryOn_congr {file file' : FileSettings}
    (h : (overridesWith env a.overrides).LeavesAlike file file') (config : Option Path) :
    carryOn reach env { a with config } (.ok file') = carryOn reach env a (.ok file) := by
  simp only [carryOn, Settings.resolve_congr h]

/-- How a command ends that is given a root. Unless its settings file can be read and its
settings can be used, it ends with status 1, and unless the root is a directory with status 2,
with nothing changed in the tree. Then it works through all runs that it finds, and ends with
status 1 if a run has failed and with 0 if none has. What is overridden in the settings file is
of no account: all comes to the same with another file that says the same elsewhere, and also
with other bytes in the same file, if it is put to no other use. -/
theorem run_exits (hargs : parse args = .work a) (disk : Disk) :
    let o := overridesWith env a.overrides
    let loaded := (loadFile a.config).run disk
    let ended := (run reach env args).run disk
    disk.SameTree loaded.1 ∧
      ((∀ p ∈ a.config, disk.node p ≠ .ok (.device .full)) →
        loaded.2 = fileContents a.config disk) ∧
      Exits reach o a.root loaded ended.1 ended.2.status ∧
      ∀ file config args' disk' file', parse args' = .work { a with config } →
        let loaded' := (loadFile config).run disk'
        let ended' := (run reach env args').run disk'
        loaded.2 = .ok file → loaded'.2 = .ok file' → o.LeavesAlike file file' →
          Settings.resolve o file' = Settings.resolve o file ∧
          (loaded'.1 = loaded.1 → ended' = ended) ∧
          ∀ place, disk.HasCwd → disk.AlikeBut place disk' → loaded'.1.faults = loaded.1.faults →
            (∀ e ∈ (carryOn reach env a loaded.2).history loaded.1, ¬ e.1.Uses place e.2) →
              ended'.2 = ended.2 ∧ ended.1.AlikeBut place ended'.1 := by
  intro o loaded ended
  have htree := loadFile_sameTree a.config disk
  have hended : ended = endFrom reach env a loaded := run_run hargs disk
  refine ⟨htree, loadFile_run a.config disk, ?_, ?_⟩
  · rw [hended, endFrom, Result.status_shown]
    exact carryOn_exits loaded
  · intro file config args' disk' file' hargs' loaded' ended' hfile hfile' halike
    have hended' : ended' = endFrom reach env a (loaded'.1, loaded.2) := by
      rw [show ended' = endFrom reach env { a with config } loaded' from run_run hargs' disk']
      simp only [endFrom, hfile, hfile', carryOn_congr halike]
    refine ⟨Settings.resolve_congr halike, fun hloaded => ?_,
      fun place hcwd hdisks hfaults huse => ?_⟩
    · rw [hended', hended, hloaded]
    · have hloaded := htree.alikeBut (loadFile_sameTree config disk') hdisks hfaults
      obtain ⟨hresult, hlater⟩ := hloaded.run (htree.hasCwd hcwd) huse
      rw [hended', hended]
      exact ⟨congrArg (Result.shown _) hresult, hlater⟩

end Run

/-! ### A settings file that is overridden -/

deriving instance DecidableEq for FileSettings, Overrides, Arguments, Request

namespace Overridden

open OneVote (name)

/-- Two runs, where the output directory of the second cannot be made, and a settings file that
could not be used as it stands. -/
def disk : Disk where
  root := .dir [(name "a", OneVote.disk.root),
    (name "b", .dir ((name "o", .file 1 [] .normal) :: OneVote.disk.root.entries)),
    (name "c.toml", .file 2 (name "out_subdir = \" \"\njobs = 0\n") .normal)]
  cwd := []

def file : FileSettings where
  outSubdir := some [' ']
  jobs := some 0

/-- A command line that says something else. -/
def args (config : List String) : List Bytes :=
  (config ++ ["--out-subdir=o", "-j2", "/"]).map name

def arguments (config : Option Path) : Arguments where
  root := .ofString "/"
  overrides := { outSubdir := some ['o'], jobs := some 2 }
  config
  verbose := false

end Overridden

open Overridden in
theorem run_exits_overridden :
    let loaded := (loadFile (some (.ofString "c.toml"))).run disk
    let ended := (run 4 {} (args ["--config=c.toml"])).run disk
    parse (args ["--config=c.toml"]) = .work (arguments (some (.ofString "c.toml"))) ∧
      loaded.2 = .ok file ∧ Overrides.Refuses {} file ∧ ended.2.status = 1 ∧
      Exits 4 (arguments none).overrides (.ofString "/") loaded ended.1 1 ∧
      (run 4 {} (args [])).run disk = ended := by
  intro loaded ended
  have hargs : parse (args ["--config=c.toml"]) =
      .work (arguments (some (.ofString "c.toml"))) := by decide +kernel
  have hstatus : ended.2.status = 1 := by decide +kernel
  have hfile : loaded.2 = .ok file := by
    have htold : loaded.2.toOption = some file := by decide +kernel
    cases hloaded : loaded.2 with
    | error e => rw [hloaded] at htold; cases htold
    | ok f => rw [hloaded] at htold; exact congrArg _ (Option.some.inj htold)
  have hsame : loaded.1 = disk := by
    obtain ⟨faults, hloaded⟩ := loadFile_sameTree (some (.ofString "c.toml")) disk
    have hfaults : loaded.1.faults = disk.faults := by decide +kernel
    rw [show loaded.1 = _ from hloaded] at hfaults ⊢
    rw [show faults = disk.faults from hfaults]
  have halike : Overrides.LeavesAlike (arguments none).overrides file {} :=
    ⟨fun _ => rfl, nofun, fun _ => rfl, fun _ => rfl, nofun⟩
  obtain ⟨-, -, hexits, hother⟩ := @run_exits 4 {} _ _ hargs disk
  refine ⟨hargs, hfile, by decide, hstatus, ?_, ?_⟩
  · rw [hstatus] at hexits
    exact hexits
  · have hargs' : parse (args []) = .work (arguments none) := by decide +kernel
    exact (hother file none (args []) disk {} hargs' hfile rfl halike).2.1 hsame.symm

end Command

end NodeLogs
