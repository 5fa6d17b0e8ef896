import NodeLogs.Discovery.Run
import NodeLogs.Discovery.Walk
import NodeLogs.Report.Notice

/-! Which directories below a root are runs: those that the hints name and that
hold logs; if there are none, all subdirectories that hold logs; if there are
none, the root itself if it holds any. -/

namespace NodeLogs

namespace Discovery

/-- The entries of a directory that are directories, links followed. -/
def subdirectories (root : Path) : List (Name × Bool) → Work (List Run)
  | [] => pure []
  | (name, _) :: rest => do
    let isDir ← Work.ask (.isDir (root.child name))
    let runs ← subdirectories root rest
    return if isDir then Run.ofPath (root.child name) :: runs else runs

/-- Those that hold logs. -/
def withLogs (reach : Nat) : List Run → Work (List Run)
  | [] => pure []
  | run :: rest => do
    let hasLogs ← looksLikeRun reach run.path
    let runs ← withLogs reach rest
    return if hasLogs then run :: runs else runs

/-- All subdirectories that hold logs, or else the root. -/
def detect (reach : Nat) (root : Path) (candidates : List Run) : Work (List Run) := do
  match ← withLogs reach candidates with
  | [] => return if ← looksLikeRun reach root then [Run.ofPath root] else []
  | detected => return detected

/-- The runs below a root in their order, and what is to be told about the search. -/
def resolve (reach : Nat) (hints : Hints) (root : Path) :
    Work (Except OsError (List Run × List Notice)) := do
  match ← Work.ask (.list root) with
  | .error e => return .error e
  | .ok entries =>
    let candidates := Run.sort (← subdirectories root entries)
    match hints.stem? with
    | none => return .ok (← detect reach root candidates, [])
    | some stem =>
      match ← withLogs reach (candidates.filter fun run => stem.isPrefixOf run.name) with
      | [] => return .ok (← detect reach root candidates, [.autodetecting stem])
      | hinted => return .ok (hinted, [.usingHinted stem hinted.length])

end Discovery

/-- Why no run was worked on. -/
inductive DiscoveryError where
  | notADirectory (root : Path)
  | unlisted (root : Path) (source : OsError)
  deriving DecidableEq

namespace DiscoveryError

def message : DiscoveryError → Text
  | notADirectory root => "not a directory: ".toList ++ root.display
  | unlisted root _ => "failed to list run directories under ".toList ++ root.display

end DiscoveryError

/-- The runs below a root that is to be a directory; to find none is no error. -/
def discover (reach : Nat) (hints : Hints) (root : Path) :
    Work (Except DiscoveryError (List Run × List Notice)) := do
  if ← Work.ask (.isDir root) then
    match ← Discovery.resolve reach hints root with
    | .error e => return .error (.unlisted root e)
    | .ok ([], notices) => return .ok ([], notices ++ [.noRuns root hints.stem?])
    | .ok found => return .ok found
  else return .error (.notADirectory root)

end NodeLogs
