import NodeLogs.Toml.Document

/-! The settings file: what it says, before anything else is taken into account. -/

namespace NodeLogs

/-- The settings that a file gives; all may be left out. -/
structure FileSettings where
  levels : Option (List Text) := none
  outSubdir : Option Text := none
  testName : Option Text := none
  schedType : Option Text := none
  jobs : Option Nat := none

namespace FileSettings

/-- Takes one pair in. A key that is not known or comes twice is refused, and so
is a value of the wrong kind. -/
def set? (file : FileSettings) (key : Text) (v : Toml.Value) : Option FileSettings :=
  if key = "levels".toList then
    match file.levels, v with
    | none, .strings ss => some { file with levels := some ss }
    | _, _ => none
  else if key = "out_subdir".toList then
    match file.outSubdir, v with
    | none, .string s => some { file with outSubdir := some s }
    | _, _ => none
  else if key = "test_name".toList then
    match file.testName, v with
    | none, .string s => some { file with testName := some s }
    | _, _ => none
  else if key = "sched_type".toList then
    match file.schedType, v with
    | none, .string s => some { file with schedType := some s }
    | _, _ => none
  else if key = "jobs".toList then
    match file.jobs, v with
    | none, .integer (.ofNat n) => some { file with jobs := some n }
    | _, _ => none
  else none

/-- The settings of a file's text. -/
def parse? (content : Text) : Option FileSettings :=
  (Toml.document? content).bind fun pairs =>
    pairs.foldlM (fun file (key, v) => file.set? key v) {}

end FileSettings

end NodeLogs
