import NodeLogs.Output.Names
import NodeLogs.Tree.Work

/-! Sinks: output files behind a buffer. Bytes wait in the buffer until it has no
room for the next piece; a piece as long as the buffer goes straight to the file. -/

namespace NodeLogs

/-- What a sink, or the directory of sinks, failed at. -/
inductive SinkStage where
  | createDir
  | openSink
  | write
  | flush
  deriving DecidableEq

/-- A failure of output: at what, where, and why. -/
structure SinkError where
  stage : SinkStage
  path : Path
  source : OsError
  deriving DecidableEq

namespace SinkError

def message (e : SinkError) : Text :=
  (match e.stage with
    | .createDir => "failed to create output directory "
    | .openSink => "failed to open sink "
    | .write => "failed to write sink "
    | .flush => "failed to flush sink ").toList ++ e.path.display

end SinkError

/-- An open output file and the bytes that it has not been given yet. -/
structure Sink where
  path : Path
  handle : Handle
  buffer : Bytes := []

namespace Sink

/-- How many bytes a buffer holds. -/
def capacity : Nat := 8192

/-- Opens a sink; a file that is there is emptied. -/
def create (path : Path) : Work (Except SinkError Sink) := do
  match ← Work.ask (.create path) with
  | .ok handle => return .ok { path, handle }
  | .error e => return .error ⟨.openSink, path, e⟩

/-- Gives the file what waits in the buffer; what it refuses goes on waiting. -/
def flush (sink : Sink) : Work (Sink × Option OsError) :=
  if sink.buffer.isEmpty then pure (sink, none)
  else do
    let written ← Work.ask (.write sink.handle sink.buffer)
    return ({ sink with handle := written.handle, buffer := sink.buffer.drop written.taken },
      written.refusal)

/-- Takes a piece for which there is room now, or which is too long for any buffer. -/
def take (sink : Sink) (piece : Bytes) : Work (Sink × Option OsError) :=
  if capacity ≤ piece.length then do
    let written ← Work.ask (.write sink.handle piece)
    return ({ sink with handle := written.handle }, written.refusal)
  else pure ({ sink with buffer := sink.buffer ++ piece }, none)

/-- Takes a piece; if it does not fit behind what waits, that goes first. -/
def put (sink : Sink) (piece : Bytes) : Work (Sink × Option OsError) :=
  if capacity < sink.buffer.length + piece.length then do
    match ← sink.flush with
    | (sink, some e) => return (sink, some e)
    | (sink, none) => sink.take piece
  else sink.take piece

/-- Takes a line and its line feed. -/
def putLine (sink : Sink) (line : Bytes) : Work (Sink × Option SinkError) := do
  match ← sink.put line with
  | (sink, some e) => return (sink, some ⟨.write, sink.path, e⟩)
  | (sink, none) =>
    let (sink, failure) ← sink.put [0x0A]
    return (sink, failure.map fun e => ⟨.write, sink.path, e⟩)

/-- Lets go of a sink: what waits is tried once more, and nobody hears of a failure. -/
def release (sink : Sink) : Work Unit := do
  let _ ← sink.flush

/-- Closes a sink; says whether all its bytes got through. -/
def close (sink : Sink) : Work (Option SinkError) := do
  let (sink, failure) ← sink.flush
  sink.release
  return failure.map fun e => ⟨.flush, sink.path, e⟩

end Sink

/-- The two sinks for one set of records, one for each form. -/
structure SinkPair where
  json : Sink
  plain : Sink

namespace SinkPair

/-- Opens both sinks in a directory; `name` gives the file for each form. -/
def create (dir : Path) (name : Form → Text) : Work (Except SinkError SinkPair) := do
  match ← Sink.create (dir.join (Path.ofText (name .json))) with
  | .error e => return .error e
  | .ok json =>
    match ← Sink.create (dir.join (Path.ofText (name .plain))) with
    | .error e => do
      json.release
      return .error e
    | .ok plain => return .ok { json, plain }

/-- Puts a record's line into each sink. -/
def putLines (pair : SinkPair) (json plain : Bytes) : Work (SinkPair × Option SinkError) := do
  match ← pair.json.putLine json with
  | (sink, some e) => return ({ pair with json := sink }, some e)
  | (sink, none) =>
    let (other, failure) ← pair.plain.putLine plain
    return (⟨sink, other⟩, failure)

/-- Closes both, whatever becomes of the first; reports the first failure. -/
def close (pair : SinkPair) : Work (Option SinkError) := do
  let json ← pair.json.close
  let plain ← pair.plain.close
  return json <|> plain

def release (pair : SinkPair) : Work Unit := do
  pair.json.release
  pair.plain.release

end SinkPair

end NodeLogs
