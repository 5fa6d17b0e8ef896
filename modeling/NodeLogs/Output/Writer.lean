import NodeLogs.Keyed
import NodeLogs.Output.Sink
import NodeLogs.Record.Basic

/-! Writers: every record of a run goes to the files of its node and to the
files of all nodes. A node's files are opened when its first record comes. -/

namespace NodeLogs

structure Writer where
  dir : Path
  /-- The name of the run, which every record is given. -/
  runName : Text
  combined : SinkPair
  /-- The nodes that have files, the earliest first. -/
  nodes : List (Nat × SinkPair) := []

namespace Writer

/-- Makes the output directory and opens the files of all nodes. -/
def create (dir : Path) (runName : Text) : Work (Except SinkError Writer) := do
  match ← Work.makeAllDirs dir with
  | .error e => return .error ⟨.createDir, dir, e⟩
  | .ok () =>
    match ← SinkPair.create dir combinedFileName with
    | .error e => return .error e
    | .ok combined => return .ok { dir, runName, combined }

def nodeCount (w : Writer) : Nat :=
  w.nodes.length

/-- The sinks of a node that has some. -/
def pair? (w : Writer) (node : Nat) : Option SinkPair :=
  w.nodes.lookup node

/-- Keeps a node's sinks as they are now: in their place, or as the latest. -/
def setPair (w : Writer) (node : Nat) (pair : SinkPair) : Writer :=
  { w with nodes := Keyed.set node pair w.nodes }

theorem pair?_setPair (w : Writer) (node other : Nat) (pair : SinkPair) :
    (w.setPair node pair).pair? other = if other == node then some pair else w.pair? other :=
  Keyed.lookup_set node other pair w.nodes

/-- The sinks of a node, opened if need be. -/
def openPair (w : Writer) (node : Nat) : Work (Except SinkError SinkPair) :=
  match w.pair? node with
  | some pair => pure (.ok pair)
  | none => SinkPair.create w.dir (nodeFileName node)

/-- Writes a record: to its node's files first, then to the files of all
nodes. The first failure ends it. -/
def write (w : Writer) (r : Record) (source : Path) (node : Nat) :
    Work (Writer × Option SinkError) := do
  let json := Utf8.encode (r.jsonFrom ⟨source.display, w.runName, node⟩)
  let plain := Utf8.encode r.plain
  match ← w.openPair node with
  | .error e => return (w, some e)
  | .ok pair =>
    match ← pair.putLines json plain with
    | (pair, some e) => return (w.setPair node pair, some e)
    | (pair, none) =>
      let (combined, failure) ← w.combined.putLines json plain
      return ({ w.setPair node pair with combined }, failure)

/-- Closes the sinks of nodes one after another, whatever becomes of them;
reports the first failure. -/
def closeAll : List (Nat × SinkPair) → Work (Option SinkError)
  | [] => pure none
  | (_, pair) :: rest => do
    let failure ← pair.close
    let later ← closeAll rest
    return failure <|> later

/-- Closes every sink, those of the nodes first; reports the first failure. -/
def finish (w : Writer) : Work (Option SinkError) := do
  let failure ← closeAll w.nodes
  let combined ← w.combined.close
  return failure <|> combined

def releaseAll : List (Nat × SinkPair) → Work Unit
  | [] => pure ()
  | (_, pair) :: rest => do
    pair.release
    releaseAll rest

/-- Lets go of every sink; nobody hears of a failure. -/
def release (w : Writer) : Work Unit := do
  w.combined.release
  releaseAll w.nodes

end Writer

end NodeLogs
