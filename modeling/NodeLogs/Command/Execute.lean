import NodeLogs.Command.Arguments
import NodeLogs.Command.Threshold
import NodeLogs.Pipeline.Run
import NodeLogs.Settings.Load

/-! What the command does with a command line: it settles the settings, works
through the runs and tells what became of them. -/

namespace NodeLogs

namespace Command

/-- What of the environment bears on the command. -/
structure Environment where
  testName : Option Text := none
  schedType : Option Text := none
  log : Option Text := none

/-- What comes of a command line. -/
inductive Result where
  | help
  | version
  | refused
  | ended (status : Nat) (notices : List Notice) (failure : Option Text)

namespace Result

/-- The exit status: 0 for success, 1 for failure, 2 where there was nothing to work on. -/
def status : Result → Nat
  | help => 0
  | version => 0
  | refused => 2
  | ended status .. => status

end Result

/-- The overrides of a command line; the environment stands in for names that it leaves out. -/
def overridesWith (env : Environment) (o : Overrides) : Overrides :=
  { o with testName := o.testName <|> env.testName, schedType := o.schedType <|> env.schedType }

/-- What the settings file says; nothing, if there is none. -/
def loadFile (config : Option Path) : Work (Except LoadError FileSettings) :=
  match config with
  | some p => FileSettings.load p
  | none => pure (.ok {})

def failureLine (parts : List Text) : Text :=
  (": ".toList).intercalate ("Error".toList :: parts)

/-- Ends a command after its runs. -/
def conclude (report : Report) (notices : List Notice) : Result :=
  let notices := notices ++ [.total report.outcomes.length report.total]
  match report.failures with
  | [] => .ended 0 notices none
  | failures =>
    .ended 1 notices (some (failureLine
      [decimal failures.length ++ " of ".toList ++ decimal report.outcomes.length ++
        " run directories could not be written".toList]))

/-- Works through the runs below a root. -/
def work (reach : Nat) (root : Path) (settings : Settings) : Work Result := do
  let pl : Pipeline :=
    { selection := ⟨.consensus, settings.levels⟩
      outSubdir := Path.ofText settings.outSubdir
      hints := settings.hints
      reach }
  match ← pl.processTogether settings.jobs root with
  | (.ok report, notices) => return conclude report notices
  | (.error (.notADirectory p), notices) => return .ended 2 (notices ++ [.notADirectory p]) none
  | (.error (.unlisted p e), notices) =>
    return .ended 1 notices (some (failureLine
      ["failed to process logs".toList, (DiscoveryError.unlisted p e).message, e.message.toList]))

/-- Carries a command line out. Every notice is among the result's, shown or not. -/
def execute (reach : Nat) (env : Environment) (args : Arguments) : Work Result := do
  match ← loadFile args.config with
  | .error e => return .ended 1 [] (some (failureLine (e.message :: e.cause?.toList)))
  | .ok file =>
    match Settings.resolve (overridesWith env args.overrides) file with
    | .error e => return .ended 1 [] (some (failureLine [e.message.toList]))
    | .ok settings => work reach args.root settings

/-- Runs the command on arguments; only the notices that are shown are left in the result. -/
def run (reach : Nat) (env : Environment) (args : List Bytes) : Work Result :=
  match parse args with
  | .help => pure .help
  | .version => pure .version
  | .refused => pure .refused
  | .work arguments => do
    match ← execute reach env arguments with
    | .ended status notices failure =>
      let threshold := Threshold.choose env.log arguments.verbose
      return .ended status (notices.filter threshold.shows) failure
    | other => return other

/-! ### Texts -/

def versionLine : String := "dslogs 0.1.0"

def aboutLine : String :=
  "Filter consensus events out of dsTest node logs, per scheduler run and per node"

def usageLine : String := "Usage: dslogs [OPTIONS] <RUN_ID_DIR>"

/-- The help text, its first line saying what the command is for. -/
def helpLines : List String :=
  [aboutLine,
    "",
    usageLine,
    "",
    "Arguments:",
    "  <RUN_ID_DIR>  Experiment directory (e.g. output/aptos/20260217_120010)",
    "",
    "Options:",
    "      --levels <LEVELS>          Comma-separated levels to keep (e.g. INFO,DEBUG); keeps all if unset",
    "      --out-subdir <OUT_SUBDIR>  Folder created inside each scheduler run directory [default: filtered]",
    "      --test-name <TEST_NAME>    Test name hint for run directory discovery [env: TEST_NAME=]",
    "      --sched-type <SCHED_TYPE>  Scheduler type hint for run directory discovery [env: SCHED_TYPE=]",
    "  -j, --jobs <JOBS>              Run directories to process at once [default: 1]",
    "      --config <FILE>            TOML file with default settings",
    "  -v, --verbose                  Log debug detail (skipped files, discovery decisions)",
    "  -h, --help                     Print help",
    "  -V, --version                  Print version"]

end Command

end NodeLogs
