import NodeLogs.Discovery.Run
import NodeLogs.Output.Sink
import NodeLogs.Report.Counts

/-! Outcomes of runs, and the notices by which a command tells of them. -/

namespace NodeLogs

/-- Why a task has broken off. -/
inductive JoinError where
  | panicked
  | cancelled
  deriving DecidableEq, Repr

/-- Why a run has not been seen through. -/
inductive RunError where
  | sink (e : SinkError)
  | worker (e : JoinError)
  | missing
  deriving DecidableEq

namespace RunError

def sink? : RunError → Option SinkError
  | sink e => some e
  | worker _ => none
  | missing => none

def message : RunError → Text
  | sink e => e.message
  | worker _ => "run worker failed".toList
  | missing => "run worker finished without reporting".toList

end RunError

/-- What became of one run. -/
structure Outcome where
  run : Run
  outDir : Path
  /-- The lines read and kept, up to the error if there was one. -/
  counts : Counts
  error : Option RunError
  deriving DecidableEq

namespace Outcome

def isOk (o : Outcome) : Bool :=
  o.error.isNone

/-- The failure of a sink, if the run has stopped at one. -/
def failure (o : Outcome) : Option SinkError :=
  o.error.bind RunError.sink?

end Outcome

/-- How grave a notice is. -/
inductive Severity where
  | error
  | warn
  | info
  | debug
  deriving DecidableEq, Repr

namespace Severity

def rank : Severity → Nat
  | error => 1
  | warn => 2
  | info => 3
  | debug => 4

def name : Severity → String
  | error => "ERROR"
  | warn => "WARN"
  | info => "INFO"
  | debug => "DEBUG"

end Severity

inductive Notice where
  | usingHinted (stem : Text) (count : Nat)
  | autodetecting (stem : Text)
  | noRuns (root : Path) (stem : Option Text)
  | skippedLog (file : Path) (e : OsError)
  | stoppedReading (file : Path) (e : OsError)
  | ranThrough (o : Outcome)
  | runFailed (o : Outcome) (e : RunError)
  | notADirectory (p : Path)
  | total (runs : Nat) (counts : Counts)
  deriving DecidableEq

namespace Notice

def severity : Notice → Severity
  | usingHinted .. => .debug
  | autodetecting _ => .debug
  | noRuns .. => .warn
  | skippedLog .. => .debug
  | stoppedReading .. => .debug
  | ranThrough _ => .info
  | runFailed .. => .error
  | notADirectory _ => .error
  | total .. => .info

/-- The notice about an outcome. -/
def ofOutcome (o : Outcome) : Notice :=
  match o.error with
  | none => ranThrough o
  | some e => runFailed o e

def countsText (c : Counts) : Text :=
  " scanned=".toList ++ decimal c.scanned ++ " kept=".toList ++ decimal c.kept

/-- The message and what it is about. -/
def message : Notice → Text
  | usingHinted stem count =>
    "using hinted run directories prefix=".toList ++ stem ++ " count=".toList ++ decimal count
  | autodetecting stem => "no hinted run directories, autodetecting prefix=".toList ++ stem
  | noRuns root none => "no scheduler run directories found root=".toList ++ root.display
  | noRuns root (some stem) =>
    "no run directories match the prefix, and autodetection found none either root=".toList ++
      root.display ++ " prefix=".toList ++ stem
  | skippedLog file e =>
    "skipping unreadable log file=".toList ++ file.display ++ " error=".toList ++ e.message.toList
  | stoppedReading file e =>
    "stopped reading log file=".toList ++ file.display ++ " error=".toList ++ e.message.toList
  | ranThrough o =>
    "filtered run directory run_dir=".toList ++ o.run.name ++ countsText o.counts ++
      " out=".toList ++ o.outDir.display
  | runFailed o e =>
    "failed to filter run directory run_dir=".toList ++ o.run.name ++ countsText o.counts ++
      " error=".toList ++ e.message
  | notADirectory p => "not a directory path=".toList ++ p.display
  | total runs counts => "TOTAL runs=".toList ++ decimal runs ++ countsText counts

/-- The notice as a line, without its time. -/
def render (n : Notice) : Text :=
  n.severity.name.toList ++ ' ' :: n.message

end Notice

end NodeLogs
