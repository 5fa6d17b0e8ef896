import NodeLogs.Sorting
import NodeLogs.Tree.Path

/-! Runs: directories that hold the node logs of one run of the scheduler, and
the hints by which their names are recognised. -/

namespace NodeLogs

/-- A run and the name it goes by. -/
structure Run where
  path : Path
  name : Text
  deriving DecidableEq

namespace Run

/-- A run is named by the last component of its path, or else by the whole path. -/
def ofPath (path : Path) : Run :=
  ⟨path, Utf8.decodeLossy (path.fileName?.getD path.bytes)⟩

/-- Where the outputs of a run go. -/
def outputDir (run : Run) (subdir : Path) : Path :=
  run.path.join subdir

/-- By path, then by name. -/
def before (a b : Run) : Bool :=
  a.path.before b.path || (!b.path.before a.path && decide (a.name < b.name))

/-- Runs in ascending order; runs that compare equal stay as they stand. -/
def sort (runs : List Run) : List Run :=
  sortBy before runs

end Run

/-- What is known about the names of runs beforehand. -/
structure Hints where
  testName : Option Text := none
  schedType : Option Text := none
  deriving DecidableEq

namespace Hints

/-- How the names of runs begin, if both hints are given and neither is empty. -/
def stem? (hints : Hints) : Option Text :=
  match hints.testName, hints.schedType with
  | some test, some sched =>
    if test.isEmpty || sched.isEmpty then none else some (test ++ '_' :: sched ++ ['_'])
  | _, _ => none

end Hints

end NodeLogs
