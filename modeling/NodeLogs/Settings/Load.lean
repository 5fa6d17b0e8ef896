import NodeLogs.Settings.File
import NodeLogs.Tree.Work

/-! Reading the settings file from a disk. -/

namespace NodeLogs

namespace Work

/-- The rest of an open file in at most so many reads, behind what was read before. -/
def readRest : Nat → Handle → Bytes → Work (Except OsError Bytes)
  | 0, _, got => pure (.ok got)
  | steps + 1, h, got => do
    match ← ask (.read h 8192) with
    | .error e => return .error e
    | .ok ([], _) => return .ok got
    | .ok (bs, h) => readRest steps h (got ++ bs)

/-- All bytes of a file. -/
def readAll (p : Path) : Work (Except OsError Bytes) := do
  match ← ask (.openRead p) with
  | .error e => return .error e
  | .ok (h, size) => readRest (size + 1) h []

end Work

/-- Why a settings file could not be used. -/
inductive LoadError where
  | unreadable (p : Path) (source : OsError)
  /-- The file's bytes are no text. -/
  | notText (p : Path)
  | invalid (p : Path)
  deriving DecidableEq

namespace LoadError

def message : LoadError → Text
  | unreadable p _ => "failed to read config file ".toList ++ p.display
  | notText p => "failed to read config file ".toList ++ p.display
  | invalid p => "invalid config file ".toList ++ p.display

/-- What lies behind the failure, if more can be said. -/
def cause? : LoadError → Option Text
  | unreadable _ source => some source.message.toList
  | notText _ => some "stream did not contain valid UTF-8".toList
  | invalid _ => none

end LoadError

namespace FileSettings

def load (p : Path) : Work (Except LoadError FileSettings) := do
  match ← Work.readAll p with
  | .error e => return .error (.unreadable p e)
  | .ok bs =>
    match Utf8.decode? bs with
    | none => return .error (.notText p)
    | some content =>
      match parse? content with
      | none => return .error (.invalid p)
      | some file => return .ok file

end FileSettings

end NodeLogs
