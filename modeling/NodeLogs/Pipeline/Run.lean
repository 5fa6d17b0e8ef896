import NodeLogs.Discovery.Resolve
import NodeLogs.Pipeline.Lines
import NodeLogs.Pipeline.Pool

/-! Filtering the runs below a root, one after another or several at a time.
Each run's records go to files in its own output directory. A run that fails
leaves the others alone. -/

namespace NodeLogs

/-- What to do with runs. -/
structure Pipeline where
  selection : Selection
  /-- The directory for outputs, seen from each run. -/
  outSubdir : Path
  hints : Hints := {}
  /-- How many directories may lie within one another. -/
  reach : Nat

namespace Pipeline

def outcome (pl : Pipeline) (run : Run) (counts : Counts) (error : Option RunError) : Outcome :=
  { run, outDir := run.outputDir pl.outSubdir, counts, error }

/-- Filters one run. When output fails the run stops there, and what its sinks
hold is written out as far as it goes. -/
def filterRun (pl : Pipeline) (run : Run) : Work (Outcome × List Notice) := do
  match ← Writer.create (run.outputDir pl.outSubdir) run.name with
  | .error e => return (pl.outcome run {} (some (.sink e)), [])
  | .ok writer =>
    let p ← Walk.walk ⟨pl.selection.takeLog, Progress.isOver⟩ pl.reach run.path { writer }
    match p.failure with
    | some e =>
      p.writer.release
      return (pl.outcome run p.counts (some (.sink e)), p.notices.reverse)
    | none =>
      let failure ← p.writer.finish
      return (pl.outcome run p.counts (failure.map .sink), p.notices.reverse)

/-- Filters runs one after another. -/
def filterRuns (pl : Pipeline) : List Run → Work (List (Outcome × List Notice))
  | [] => pure []
  | run :: rest => do
    let o ← pl.filterRun run
    let os ← pl.filterRuns rest
    return o :: os

end Pipeline

/-- The outcomes of all runs, in the order in which they were found. -/
structure Report where
  outcomes : List Outcome := []

namespace Report

/-- The counts of all runs together, those of failed ones included. -/
def total (report : Report) : Counts :=
  Counts.sum (report.outcomes.map Outcome.counts)

def failures (report : Report) : List Outcome :=
  report.outcomes.filter fun o => !o.isOk

def hasFailures (report : Report) : Bool :=
  !report.failures.isEmpty

def isEmpty (report : Report) : Bool :=
  report.outcomes.isEmpty

end Report

namespace Pipeline

/-- Finds the runs below a root and filters them one after another. What is to
be told comes in the order in which it happened. -/
def process (pl : Pipeline) (root : Path) : Work (Except DiscoveryError Report × List Notice) := do
  match ← discover pl.reach pl.hints root with
  | .error e => return (.error e, [])
  | .ok (runs, notices) =>
    let results ← pl.filterRuns runs
    return (.ok { outcomes := results.map Prod.fst },
      notices ++ results.flatMap fun (o, told) => told ++ [.ofOutcome o])

/-- What a task leaves: the outcome of its run and what is to be told, unless it breaks off. -/
abbrev Joined := Except JoinError (Outcome × List Notice)

/-- A run as a task. Nothing that a run does can break its task off. -/
def task (pl : Pipeline) (run : Run) : Work Joined := do
  let result ← pl.filterRun run
  return .ok result

/-- The runs as a pool of tasks. -/
def pool (pl : Pipeline) (runs : List Run) : Pool Joined :=
  .ofWork (runs.map pl.task)

/-- What became of a run, by its slot: it has failed if its task broke off or left nothing. -/
def settle (pl : Pipeline) (run : Run) : Option Joined → Outcome × List Notice
  | some (.ok result) => result
  | some (.error e) => (pl.outcome run {} (some (.worker e)), [])
  | none => (pl.outcome run {} (some .missing), [])

/-- Finds the runs below a root and filters at most so many at a time. The
outcomes come in the order of the runs, and are told when all are there. -/
def processTogether (pl : Pipeline) (jobs : Nat) (root : Path) :
    Work (Except DiscoveryError Report × List Notice) := do
  match ← discover pl.reach pl.hints root with
  | .error e => return (.error e, [])
  | .ok (runs, notices) =>
    let slots ← (pl.pool runs).workOff jobs
    let results := List.zipWith pl.settle runs slots
    let outcomes := results.map Prod.fst
    return (.ok { outcomes },
      notices ++ results.flatMap Prod.snd ++ outcomes.map Notice.ofOutcome)

end Pipeline

end NodeLogs
