import NodeLogs.Proofs.Discovery.Runs
import NodeLogs.Proofs.Pipeline.Confined
import NodeLogs.Proofs.Pipeline.Run
import NodeLogs.Proofs.Pipeline.Turns

/-! Runs that are filtered several at a time. On a plain disk the runs that are found keep
to directories of their own, so that in whatever order their calls are made, the disk and
the report are in the end as if the runs had been filtered one after another. -/

namespace NodeLogs

namespace Pipeline

/-! ### One run after another -/

section Sequence

variable (pl : Pipeline) (run : Run) (runs : List Run) (disk : Disk)

/-- However its calls are answered, the outcome of a run is the run's own, in its own directory,
and if there is an error, a sink has failed. -/
theorem filterRun_ends {result : Outcome × List Notice}
    (h : (pl.filterRun run).Leaves (.done result)) :
    ∃ counts failure, result.1 = pl.outcome run counts (Option.map .sink failure) := by
  unfold filterRun at h
  obtain ⟨created, -, h⟩ := h.of_bind
  cases created with
  | error e =>
    cases h
    exact ⟨{}, some e, rfl⟩
  | ok writer =>
    obtain ⟨p, -, h⟩ := h.of_bind
    split at h
    next e _ =>
      obtain ⟨-, -, h⟩ := h.of_bind
      cases h
      exact ⟨p.counts, some e, rfl⟩
    next =>
      obtain ⟨failure, -, h⟩ := h.of_bind
      cases h
      exact ⟨p.counts, failure, rfl⟩

theorem filterRun_outcome : ∃ counts failure,
    ((pl.filterRun run).run disk).2.1 = pl.outcome run counts (Option.map .sink failure) :=
  pl.filterRun_ends run (Work.leaves_run _ _)

theorem filterRun_run : ((pl.filterRun run).run disk).2.1.run = run := by
  obtain ⟨counts, failure, h⟩ := pl.filterRun_outcome run disk
  rw [h]
  rfl

theorem filterRun_outDir :
    ((pl.filterRun run).run disk).2.1.outDir = run.outputDir pl.outSubdir := by
  obtain ⟨counts, failure, h⟩ := pl.filterRun_outcome run disk
  rw [h]
  rfl

theorem filterRuns_cons : (pl.filterRuns (run :: runs)).run disk =
    (((pl.filterRuns runs).run ((pl.filterRun run).run disk).1).1,
      ((pl.filterRun run).run disk).2 ::
        ((pl.filterRuns runs).run ((pl.filterRun run).run disk).1).2) := by
  simp only [filterRuns, Work.run_bind]
  rfl

/-- There is one outcome for each run. -/
theorem filterRuns_runs :
    ((pl.filterRuns runs).run disk).2.map (fun result => result.1.run) = runs := by
  induction runs generalizing disk with
  | nil => rfl
  | cons run runs ih => rw [filterRuns_cons, List.map_cons, filterRun_run, ih]

theorem run_mem_of_mem_filterRuns {result : Outcome × List Notice}
    (h : result ∈ ((pl.filterRuns runs).run disk).2) : result.1.run ∈ runs := by
  have hmem := List.mem_map_of_mem (f := fun result => result.1.run) h
  rwa [filterRuns_runs] at hmem

/-- An error of a run is the failure of a sink. -/
theorem filterRuns_sinks {o : Outcome} (ho : o ∈ ((pl.filterRuns runs).run disk).2.map Prod.fst)
    {error : RunError} (herror : o.error = some error) : ∃ failure, error = .sink failure := by
  induction runs generalizing disk with
  | nil => cases ho
  | cons run runs ih =>
    rw [filterRuns_cons, List.map_cons] at ho
    cases ho with
    | tail _ ho => exact ih _ ho
    | head =>
      obtain ⟨counts, failure, houtcome⟩ := pl.filterRun_outcome run disk
      rw [houtcome] at herror
      obtain ⟨failure, -, rfl⟩ := Option.map_eq_some_iff.mp herror
      exact ⟨failure, rfl⟩

theorem task_run : (pl.task run).run disk =
    (((pl.filterRun run).run disk).1, .ok ((pl.filterRun run).run disk).2) := by
  rw [task, Work.run_bind, Work.run_pure]

/-- However its calls are answered, a task ends with a result of its run. -/
theorem task_ends {joined : Joined} (h : (pl.task run).Leaves (.done joined)) :
    ∃ result, joined = .ok result ∧ (pl.filterRun run).Leaves (.done result) := by
  unfold task at h
  obtain ⟨result, hresult, h⟩ := h.of_bind
  cases h
  exact ⟨result, rfl, hresult⟩

/-- Slots that are filled as they are to be: each has a result. -/
def filledWith (results : List (Outcome × List Notice)) : List (Option Joined) :=
  results.map fun result => some (.ok result)

/-- Seen through one after another, the tasks of a pool do what the runs do. -/
theorem seeThrough_pool (filled : List (Option Joined)) :
    (Pool.seeThrough (((runs.map pl.task).zipIdx filled.length).map fun (work, slot) =>
      ⟨slot, work⟩) (filled ++ runs.map fun _ => none)).run disk =
    (((pl.filterRuns runs).run disk).1, filled ++ filledWith ((pl.filterRuns runs).run disk).2) := by
  induction runs generalizing disk filled with
  | nil => rfl
  | cons run runs ih =>
    have hset (joined : Joined) :
        (filled ++ none :: runs.map fun _ => none).set filled.length (some joined) =
          (filled ++ [some joined]) ++ runs.map fun _ => none := by simp
    have hrest := ih ((pl.filterRun run).run disk).1
      (filled ++ [some (.ok ((pl.filterRun run).run disk).2)])
    rw [List.length_append, List.length_singleton] at hrest
    simp only [List.map_cons, List.zipIdx_cons, Pool.seeThrough, Work.run_bind, task_run,
      filterRuns_cons]
    rw [hset, hrest, List.append_assoc, List.singleton_append, filledWith, filledWith,
      List.map_cons]

theorem rest_pool : (pl.pool runs).rest.run disk =
    (((pl.filterRuns runs).run disk).1, filledWith ((pl.filterRuns runs).run disk).2) := by
  have hslots : (pl.pool runs).slots = runs.map fun _ => none := List.map_map
  rw [Pool.rest, hslots]
  exact pl.seeThrough_pool runs disk []

theorem workOff_pool (jobs : Nat) : ((pl.pool runs).workOff jobs).run disk =
    (((pl.filterRuns runs).run disk).1, filledWith ((pl.filterRuns runs).run disk).2) := by
  rw [pool, Pool.workOff_ofWork]
  exact pl.rest_pool runs disk

/-- Where all slots are filled as they are to be, each run is settled by its result. -/
theorem settle_filledWith {results : List (Outcome × List Notice)}
    (h : runs.length = results.length) :
    List.zipWith pl.settle runs (filledWith results) = results := by
  induction runs generalizing results with
  | nil => rw [List.zipWith_nil_left, List.eq_nil_of_length_eq_zero h.symm]
  | cons run runs ih =>
    cases results with
    | nil => cases h
    | cons result results => exact congrArg (result :: ·) (ih (Nat.succ.inj h))

theorem settle_filterRuns :
    List.zipWith pl.settle runs (filledWith ((pl.filterRuns runs).run disk).2) =
      ((pl.filterRuns runs).run disk).2 :=
  pl.settle_filledWith runs (by
    rw [← congrArg List.length (pl.filterRuns_runs runs disk), List.length_map])

end Sequence

section Found

variable {pl : Pipeline} {disk : Disk} {root : Path}

theorem discover_disk : ((discover pl.reach pl.hints root).run disk).1 = disk :=
  (discover_looks disk pl.reach pl.hints root).run.2

section

variable {e : DiscoveryError} (h : ((discover pl.reach pl.hints root).run disk).2 = .error e)
include h

theorem process_unfound : (pl.process root).run disk = (disk, .error e, []) := by
  simp only [process, Work.run_bind, h, discover_disk, Work.run_pure]

variable (pl) in
theorem processTogether_unfound (jobs : Nat) :
    (pl.processTogether jobs root).run disk = (disk, .error e, []) := by
  simp only [processTogether, Work.run_bind, h, discover_disk, Work.run_pure]

end

variable {runs : List Run} {notices : List Notice}
  (h : ((discover pl.reach pl.hints root).run disk).2 = .ok (runs, notices))
include h

theorem process_found : (pl.process root).run disk = (((pl.filterRuns runs).run disk).1,
    .ok { outcomes := ((pl.filterRuns runs).run disk).2.map Prod.fst },
    notices ++ ((pl.filterRuns runs).run disk).2.flatMap fun (o, told) =>
      told ++ [.ofOutcome o]) := by
  simp only [process, Work.run_bind, h, discover_disk, Work.run_pure]

variable (pl) in
/-- With the oldest task first, runs several at a time come to what they come to one after
another. -/
theorem processTogether_found (jobs : Nat) : (pl.processTogether jobs root).run disk =
    (((pl.filterRuns runs).run disk).1,
      .ok { outcomes := ((pl.filterRuns runs).run disk).2.map Prod.fst },
      notices ++ ((pl.filterRuns runs).run disk).2.flatMap Prod.snd ++
        (((pl.filterRuns runs).run disk).2.map Prod.fst).map Notice.ofOutcome) := by
  simp only [processTogether, Work.run_bind, h, discover_disk, workOff_pool, settle_filterRuns,
    Work.run_pure]

theorem accepted_found (hok : (pl.process root).Accepted disk) :
    (pl.filterRuns runs).Accepted disk := by
  have hrest := (Work.accepted_bind.mp hok).2
  rw [h, discover_disk] at hrest
  exact (Work.accepted_bind.mp hrest).1

end Found

/-- With the oldest task first, at most so many at a time, the disk and the report are as if the
runs had been filtered one after another. No call of one task comes between those of another, so
that this holds on every disk and for outputs anywhere. -/
theorem processTogether_agrees (pl : Pipeline) (jobs : Nat) (root : Path) (disk : Disk) :
    ((pl.processTogether jobs root).run disk).1 = ((pl.process root).run disk).1 ∧
      ((pl.processTogether jobs root).run disk).2.1 = ((pl.process root).run disk).2.1 := by
  cases h : ((discover pl.reach pl.hints root).run disk).2 with
  | error e =>
    rw [pl.processTogether_unfound h, process_unfound h]
    exact ⟨rfl, rfl⟩
  | ok found =>
    rw [pl.processTogether_found h, process_found h]
    exact ⟨rfl, rfl⟩

/-- A report is that of runs apart, one after another. -/
theorem process_report {pl : Pipeline} {disk : Disk} (hplain : disk.Plain) {root : Path}
    {report : Report} (hreport : ((pl.process root).run disk).2.1 = .ok report) :
    ∃ runs, disk.Parts runs ∧
      ((pl.process root).run disk).1 = ((pl.filterRuns runs).run disk).1 ∧
      report.outcomes = ((pl.filterRuns runs).run disk).2.map Prod.fst := by
  cases hresult : ((discover pl.reach pl.hints root).run disk).2 with
  | error e =>
    rw [process_unfound hresult] at hreport
    cases hreport
  | ok found =>
    obtain ⟨runs, notices⟩ := found
    have hfound := (discover_finds hplain pl.reach pl.hints root).run.1
    rw [hresult] at hfound
    rw [process_found hresult] at hreport ⊢
    cases hreport
    exact ⟨runs, hfound, rfl, rfl⟩

/-! ### Runs in turns -/

/-- How far runs may get that are filtered at most so many at a time: the search has
failed, or runs were found and their tasks have taken some steps. -/
inductive Together (pl : Pipeline) (jobs : Nat) (root : Path) (disk : Disk) :
    Disk → Except DiscoveryError (List Run × Pool Joined) → Prop where
  | failed {e} (h : ((discover pl.reach pl.hints root).run disk).2 = .error e) :
    Together pl jobs root disk ((discover pl.reach pl.hints root).run disk).1 (.error e)
  | found {runs notices later pool}
    (h : ((discover pl.reach pl.hints root).run disk).2 = .ok (runs, notices))
    (hreaches : Pool.Reaches jobs (((discover pl.reach pl.hints root).run disk).1, pl.pool runs)
      (later, pool)) :
    Together pl jobs root disk later (.ok (runs, pool))

/-- The report of a pool: what became of its runs, by their slots. -/
def reportOf (pl : Pipeline) (runs : List Run) (pool : Pool Joined) : Report where
  outcomes := (List.zipWith pl.settle runs pool.slots).map Prod.fst

/-- To filter runs with the oldest first is one way for them to go on until all is over. -/
theorem processTogether_together (pl : Pipeline) (jobs : Nat) (root : Path) (disk : Disk) :
    ∃ r, pl.Together jobs root disk ((pl.processTogether jobs root).run disk).1 r ∧
      ((pl.processTogether jobs root).run disk).2.1 = r.map (fun found => pl.reportOf found.1 found.2) ∧
      ∀ runs pool, r = .ok (runs, pool) → pool.isOver := by
  cases h : ((discover pl.reach pl.hints root).run disk).2 with
  | error e =>
    refine ⟨.error e, ?_, ?_, nofun⟩
    · simp only [processTogether, Work.run_bind, h, Work.run_pure]
      exact .failed h
    · simp only [processTogether, Work.run_bind, h]
      rfl
  | ok found =>
    obtain ⟨runs, notices⟩ := found
    have hreaches := Pool.reaches_workOff jobs ((discover pl.reach pl.hints root).run disk).1
      (runs.map pl.task)
    have htogether := Together.found h hreaches
    have hlater : ((pl.processTogether jobs root).run disk).1 =
        (((pl.pool runs).workOff jobs).run ((discover pl.reach pl.hints root).run disk).1).1 := by
      simp only [processTogether, Work.run_bind, h, Work.run_pure]
    rw [hlater]
    refine ⟨_, htogether, ?_, ?_⟩
    · simp only [processTogether, Work.run_bind, h, Work.run_pure]
      rfl
    · rintro _ _ ⟨⟩
      rfl

/-- Runs that are filtered several at a time agree with runs that are filtered one after
another: their pool is tidy and goes on until it is over, though not for ever, and then
there is a result for each run, none of them missing or lost with its task, and the disk and
the report are the same. -/
structure Agrees (pl : Pipeline) (jobs : Nat) (root : Path) (disk : Disk) (runs : List Run)
    (later : Disk) (pool : Pool Joined) : Prop where
  tidy : pool.Tidy jobs (runs.map pl.task)
  goesOn : pool.isOver = false → ∃ next, Pool.Step jobs (later, pool) next
  ends : Acc (fun next s => Pool.Step jobs s next) (later, pool)
  filled : pool.isOver → ∀ slot ∈ pool.slots, ∃ result, slot = some (.ok result)
  sinks : pool.isOver → ∀ o ∈ (pl.reportOf runs pool).outcomes, ∀ error, o.error = some error →
    ∃ failure, error = .sink failure
  same : pool.isOver → ((pl.process root).run disk).1 = later ∧
    ((pl.process root).run disk).2.1 = .ok (pl.reportOf runs pool)
  runs : pool.isOver → (pl.reportOf runs pool).outcomes.map Outcome.run = runs

/-- A call of the run with a number: it is local to the run's directory. -/
def CallOf (disk : Disk) (runs : List Run) (k : Nat) (c : Call) : Prop :=
  ∃ run place, runs[k]? = some run ∧ disk.LeadsTo run.path place ∧ c.LocalTo disk.Becomes place

section Apart

variable {pl : Pipeline} {disk : Disk} {runs : List Run} (hplain : disk.Plain)
  (hruns : disk.Parts runs)
include hruns

/-- Calls of different runs do not bear on one another. -/
theorem callOf_independent {j k : Nat} (hne : j ≠ k) {later : Disk} {c d : Call}
    (hlater : disk.Becomes later) (hc : CallOf disk runs j c) (hd : CallOf disk runs k d) :
    later.Independent c d := by
  obtain ⟨run, place, hrun, hplace, hc⟩ := hc
  obtain ⟨other, place', hother, hplace', hd⟩ := hd
  obtain ⟨hj, rfl⟩ := List.getElem?_eq_some_iff.mp hrun
  obtain ⟨hk, rfl⟩ := List.getElem?_eq_some_iff.mp hother
  have hapart := List.pairwise_iff_getElem.mp hruns.apart
  refine hc.independent hd ?_ (fun _ c h => h.answer c) hlater
  rcases Nat.lt_or_gt_of_ne hne with hlt | hlt
  · exact hapart j k hj hk hlt place place' hplace hplace'
  · exact (hapart k j hk hj hlt place' place hplace' hplace).symm

include hplain

theorem pool_keepTo (hsub : pl.outSubdir.GoesDown) :
    Pool.KeepTo disk.Becomes (CallOf disk runs) (pl.pool runs).tasks where
  once := (Pool.tidy_ofWork 0 _).once
  calls := by
    intro task htask
    obtain ⟨⟨work, slot⟩, hmem, rfl⟩ := List.mem_map.mp htask
    have hwork := List.mem_zipIdx_iff_getElem?.mp hmem
    rw [List.getElem?_map] at hwork
    obtain ⟨run, hrun, rfl⟩ := Option.map_eq_some_iff.mp hwork
    obtain ⟨hne, place, hleads⟩ := hruns.leadsTo run (List.mem_of_getElem? hrun)
    have hlocal : (pl.filterRun run).Stays disk.Becomes (CallOf disk runs slot) fun _ => True :=
      (pl.filterRun_local hne hsub hplain hleads).mono
        (fun c hc => ⟨run, place, hrun, hleads, hc⟩) fun _ => id
    exact hlocal.bind fun _ _ => .pure trivial

/-- When all is over, the disk and the slots are what the runs come to one after another. -/
theorem reaches_filterRuns (hsub : pl.outSubdir.GoesDown) {jobs : Nat} {later : Disk}
    {pool : Pool Joined} (hreaches : Pool.Reaches jobs (disk, pl.pool runs) (later, pool))
    (hover : pool.isOver) :
    later = ((pl.filterRuns runs).run disk).1 ∧
      pool.slots = filledWith ((pl.filterRuns runs).run disk).2 := by
  have hrun := hreaches.rest_run (fun _ c h => h.answer c) (callOf_independent hruns)
    hplain.becomes (pool_keepTo hplain hruns hsub)
  have htasks : pool.tasks = [] := by simpa [Pool.tasks, Pool.isOver, and_comm] using hover
  rw [rest_pool, Pool.rest, htasks] at hrun
  exact Prod.mk.inj hrun

end Apart

/-- On a plain disk, runs with their outputs below them come to the same whether they are
filtered several at a time, in whatever order their calls are made, or one after another. -/
theorem together_agrees (pl : Pipeline) (hsub : pl.outSubdir.GoesDown) {disk : Disk}
    (hplain : disk.Plain) {jobs : Nat} {root : Path} {later : Disk}
    {r : Except DiscoveryError (List Run × Pool Joined)}
    (h : pl.Together jobs root disk later r) :
    match r with
    | .error e => (pl.process root).run disk = (later, .error e, [])
    | .ok (runs, pool) => pl.Agrees jobs root disk runs later pool := by
  cases h with
  | failed hfailed => simp only [process_unfound hfailed, discover_disk]
  | @found runs notices later pool h hreaches =>
    have hfound := (discover_finds hplain pl.reach pl.hints root).run.1
    rw [h] at hfound
    rw [discover_disk] at hreaches
    have htidy := hreaches.tidy (Pool.tidy_ofWork jobs (runs.map pl.task))
    have hsame := reaches_filterRuns hplain hfound hsub hreaches
    have hreport (hover : pool.isOver) : (pl.reportOf runs pool).outcomes =
        ((pl.filterRuns runs).run disk).2.map Prod.fst := by
      rw [reportOf, (hsame hover).2, settle_filterRuns]
    refine ⟨htidy, fun hover => htidy.exists_step hover later,
      (Pool.step_wellFounded jobs).apply _, fun hover slot hslot => ?_,
      fun hover o ho error herror => ?_, fun hover => ?_, fun hover => ?_⟩
    · rw [(hsame hover).2] at hslot
      obtain ⟨result, -, rfl⟩ := List.mem_map.mp hslot
      exact ⟨result, rfl⟩
    · rw [hreport hover] at ho
      exact pl.filterRuns_sinks runs disk ho herror
    · rw [process_found h, (hsame hover).1, ← hreport hover]
      exact ⟨rfl, rfl⟩
    · rw [hreport hover, List.map_map]
      exact pl.filterRuns_runs runs disk

/-! ### Two runs -/

/-- Two directories with a run each. -/
def twoVotes : Disk :=
  { OneVote.disk with
    root := .dir [(OneVote.name "b", OneVote.disk.root), (OneVote.name "a", OneVote.disk.root)] }

def twoRuns : List Run :=
  [.ofPath (.ofString "/a"), .ofPath (.ofString "/b")]

open OneVote in
/-- The second run is done before the first has made a call. -/
theorem together_agrees_twoVotes : ∃ later pool,
    pipeline.Together 2 (.ofString "/") twoVotes later (.ok (twoRuns, pool)) ∧ pool.isOver ∧
      pipeline.Agrees 2 (.ofString "/") twoVotes twoRuns later pool := by
  have hfound : ((discover pipeline.reach pipeline.hints (.ofString "/")).run twoVotes).2 =
      .ok (twoRuns, []) := by decide +kernel
  let found := ((discover pipeline.reach pipeline.hints (.ofString "/")).run twoVotes).1
  let first : Task Joined := ⟨0, pipeline.task (.ofPath (.ofString "/a"))⟩
  have hstart : Pool.Reaches 2 (found, pipeline.pool twoRuns) (found, ⟨[], [first,
      ⟨1, pipeline.task (.ofPath (.ofString "/b"))⟩], [none, none]⟩) :=
    .step (.start _ _ _ [] _ (by decide)) (.step (.start _ _ _ _ _ (by decide)) (.refl _))
  have hsecond := Pool.reaches_done 2 found [] [first] [] 1
    (pipeline.task (.ofPath (.ofString "/b"))) [none, none]
  have hreaches := (hstart.trans hsecond).trans
    (.step (.collect _ [] [first] 1 _ [] _ (.inl rfl)) (Pool.reaches_seeThrough 2 _ [first] _))
  exact ⟨_, _, .found hfound hreaches, rfl,
    together_agrees pipeline (by decide +kernel) (by decide +kernel) (.found hfound hreaches)⟩

end Pipeline

end NodeLogs
