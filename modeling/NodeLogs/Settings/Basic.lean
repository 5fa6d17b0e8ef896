import NodeLogs.Discovery.Run
import NodeLogs.Filter.Levels
import NodeLogs.Settings.File

/-! Settings: what the command line and the environment say counts first, then
the settings file, then the defaults. -/

namespace NodeLogs

/-- The settings of the command line, those of the environment among them. -/
structure Overrides where
  levels : Option Text := none
  outSubdir : Option Text := none
  testName : Option Text := none
  schedType : Option Text := none
  jobs : Option Nat := none

/-- Why settings are refused. -/
inductive SettingsError where
  | blankOutSubdir
  | noJobs
  deriving DecidableEq

def SettingsError.message : SettingsError → String
  | blankOutSubdir => "output subdirectory name must not be empty"
  | noJobs => "jobs must be at least 1"

/-- How runs are found, filtered and written. -/
structure Settings where
  levels : Levels
  /-- The directory for outputs inside each run. -/
  outSubdir : Text
  hints : Hints
  /-- How many runs are worked on at a time. -/
  jobs : Nat

namespace Settings

def defaultOutSubdir : Text := "filtered".toList

def chooseLevels (overrides : Overrides) (file : FileSettings) : Levels :=
  match overrides.levels, file.levels with
  | some list, _ => Levels.ofList list
  | none, some entries => Levels.ofEntries entries
  | none, none => Levels.all

/-- Settles every setting; a blank directory name is found first. -/
def resolve (overrides : Overrides) (file : FileSettings) : Except SettingsError Settings :=
  let outSubdir := (overrides.outSubdir <|> file.outSubdir).getD defaultOutSubdir
  let jobs := (overrides.jobs <|> file.jobs).getD 1
  if (Text.trim outSubdir).isEmpty then .error .blankOutSubdir
  else if jobs = 0 then .error .noJobs
  else .ok
    { levels := chooseLevels overrides file
      outSubdir
      hints := ⟨overrides.testName <|> file.testName, overrides.schedType <|> file.schedType⟩
      jobs }

end Settings

end NodeLogs
