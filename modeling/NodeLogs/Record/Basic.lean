import NodeLogs.Record.Correlation

/-! Log records and the two lines that are written for each: one of JSON, which
also says where the record came from, and one of plain text. -/

namespace NodeLogs

/-- A log line in its parts. -/
structure Record where
  /-- When the node wrote it. -/
  stamp : Text
  thread : Text
  level : Text
  /-- The source file, or another label, that the line names as its origin. -/
  target : Text
  /-- The line number within `target`. -/
  line : Nat
  msg : Text
  /-- The object inside the message, if there is one. -/
  payload : Option Json.Object
  /-- The payload's name for what happened. -/
  event : Option Text
  fields : Correlation

/-- Where a record was found. -/
structure Origin where
  /-- The log file. -/
  source : Text
  /-- The name of the run. -/
  run : Text
  node : Nat

namespace Record

/-- The record as an object; absent parts are left out. -/
def members (r : Record) : Json.Object :=
  [("ts".toList, .string r.stamp), ("thread".toList, .string r.thread),
    ("level".toList, .string r.level), ("target".toList, .string r.target),
    ("line".toList, .ofNat r.line), ("msg".toList, .string r.msg)] ++
  (r.payload.map fun o => ("json".toList, .object o)).toList ++
  (r.event.map fun e => ("event".toList, .string e)).toList ++
  r.fields.members

/-- The record with its origin. -/
def membersFrom (r : Record) (o : Origin) : Json.Object :=
  r.members ++
  [("source_file".toList, .string o.source), ("run_dir".toList, .string o.run),
    ("node".toList, .ofNat o.node)]

def json (r : Record) : Text :=
  Json.Object.render r.members

/-- The line of JSON. -/
def jsonFrom (r : Record) (o : Origin) : Text :=
  Json.Object.render (r.membersFrom o)

/-- The line of plain text: the time and the message. -/
def plain (r : Record) : Text :=
  r.stamp ++ ' ' :: r.msg

end Record

end NodeLogs
