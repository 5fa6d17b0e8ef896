import NodeLogs.Settings.Basic

/-! The command line. Arguments are taken in from the left, and the first that
is help, the version or a fault settles the matter. An option's value stands in
the next argument or behind an equals sign; in the next argument it must not
look like an option. -/

namespace NodeLogs

namespace Command

/-- The options that take a value. -/
inductive Opt where
  | levels | outSubdir | testName | schedType | jobs | config
  deriving DecidableEq

/-- The options that take none. -/
inductive Flag where
  | verbose | help | version
  deriving DecidableEq

/-- The option of a long name. -/
def long? (name : Text) : Option (Opt ⊕ Flag) :=
  if name = "levels".toList then some (.inl .levels)
  else if name = "out-subdir".toList then some (.inl .outSubdir)
  else if name = "test-name".toList then some (.inl .testName)
  else if name = "sched-type".toList then some (.inl .schedType)
  else if name = "jobs".toList then some (.inl .jobs)
  else if name = "config".toList then some (.inl .config)
  else if name = "verbose".toList then some (.inr .verbose)
  else if name = "help".toList then some (.inr .help)
  else if name = "version".toList then some (.inr .version)
  else none

/-- The option of a letter. -/
def short? (c : Char) : Option (Opt ⊕ Flag) :=
  if c = 'j' then some (.inl .jobs)
  else if c = 'v' then some (.inr .verbose)
  else if c = 'h' then some (.inr .help)
  else if c = 'V' then some (.inr .version)
  else none

/-- What was given so far. -/
structure Draft where
  root : Option Path := none
  overrides : Overrides := {}
  config : Option Path := none
  verbose : Bool := false

/-- A complete command line. -/
structure Arguments where
  root : Path
  overrides : Overrides
  config : Option Path
  verbose : Bool

/-- What a command line asks for. -/
inductive Request where
  | work (arguments : Arguments)
  | help
  | version
  /-- The arguments are refused. -/
  | refused

/-- A number of jobs: a word, perhaps with a plus sign. -/
def jobs? (cs : Text) : Option Nat :=
  match cs with
  | '+' :: cs => readWord? cs
  | cs => readWord? cs

namespace Draft

/-- Takes the value of an option; no option may be given twice. Texts must be
encoded properly, and a path must not be empty. -/
def set? (d : Draft) (opt : Opt) (v : Bytes) : Option Draft :=
  match opt with
  | .levels =>
    if d.overrides.levels.isSome then none
    else (Utf8.decode? v).map fun s => { d with overrides := { d.overrides with levels := some s } }
  | .outSubdir =>
    if d.overrides.outSubdir.isSome then none
    else (Utf8.decode? v).map fun s =>
      { d with overrides := { d.overrides with outSubdir := some s } }
  | .testName =>
    if d.overrides.testName.isSome then none
    else (Utf8.decode? v).map fun s =>
      { d with overrides := { d.overrides with testName := some s } }
  | .schedType =>
    if d.overrides.schedType.isSome then none
    else (Utf8.decode? v).map fun s =>
      { d with overrides := { d.overrides with schedType := some s } }
  | .jobs =>
    if d.overrides.jobs.isSome then none
    else ((Utf8.decode? v).bind jobs?).map fun n =>
      { d with overrides := { d.overrides with jobs := some n } }
  | .config =>
    if d.config.isSome || v.isEmpty then none else some { d with config := some ⟨v⟩ }

/-- Takes the root: one, and not an empty one. -/
def setRoot? (d : Draft) (arg : Bytes) : Option Draft :=
  if d.root.isSome || arg.isEmpty then none else some { d with root := some ⟨arg⟩ }

def setVerbose? (d : Draft) : Option Draft :=
  if d.verbose then none else some { d with verbose := true }

/-- A command line that is complete once a root was given. -/
def complete (d : Draft) : Request :=
  match d.root with
  | some root => .work { root, overrides := d.overrides, config := d.config, verbose := d.verbose }
  | none => .refused

end Draft

def dash : UInt8 := 0x2D

def equals : UInt8 := 0x3D

/-- Does an argument look like an option? A single dash does not. -/
def looksLikeOption : Bytes → Bool
  | b :: _ :: _ => b = dash
  | _ => false

/-- Arguments that are no options, whatever they look like. -/
def takeRoots : Draft → List Bytes → Request
  | d, [] => d.complete
  | d, arg :: rest =>
    match d.setRoot? arg with
    | some d => takeRoots d rest
    | none => .refused

/-- How far an argument of option letters leads. -/
inductive Letters where
  | taken (d : Draft)
  /-- The last letter is an option whose value is to come. -/
  | wants (d : Draft) (opt : Opt)
  | settled (request : Request)

/-- Option letters in a row; what follows one that takes a value is its value. -/
def takeLetters : Draft → Text → Letters
  | d, [] => .taken d
  | d, c :: cs =>
    match short? c with
    | none => .settled .refused
    | some (.inr .help) => .settled .help
    | some (.inr .version) => .settled .version
    | some (.inr .verbose) =>
      match d.setVerbose? with
      | some d => takeLetters d cs
      | none => .settled .refused
    | some (.inl opt) =>
      match cs with
      | [] => .wants d opt
      | c :: rest =>
        match d.set? opt (Utf8.encode (if c = '=' then rest else c :: rest)) with
        | some d => .taken d
        | none => .settled .refused

/-- An option's name without its dashes, and the value behind the equals sign. -/
def splitLong (bs : Bytes) : Bytes × Option Bytes :=
  match bs.span (· ≠ equals) with
  | (name, _ :: v) => (name, some v)
  | (name, []) => (name, none)

/-- Takes all arguments in. -/
def take : Draft → List Bytes → Request
  | d, [] => d.complete
  | d, arg :: rest =>
    if arg = [dash, dash] then takeRoots d rest
    else if !looksLikeOption arg then
      match d.setRoot? arg with
      | some d => take d rest
      | none => .refused
    else if arg.take 2 = [dash, dash] then
      match splitLong (arg.drop 2) with
      | (name, v) =>
        match (Utf8.decode? name).bind long?, v with
        | none, _ => .refused
        | some (.inr _), some _ => .refused
        | some (.inr .help), none => .help
        | some (.inr .version), none => .version
        | some (.inr .verbose), none =>
          match d.setVerbose? with
          | some d => take d rest
          | none => .refused
        | some (.inl opt), some v =>
          match d.set? opt v with
          | some d => take d rest
          | none => .refused
        | some (.inl opt), none => takeValue d opt rest
    else
      match takeLetters d (Utf8.decodeLossy (arg.drop 1)) with
      | .settled request => request
      | .taken d => take d rest
      | .wants d opt => takeValue d opt rest
where
  /-- Takes the value of an option from the next argument. -/
  takeValue (d : Draft) (opt : Opt) : List Bytes → Request
    | [] => .refused
    | v :: rest =>
      if looksLikeOption v then .refused
      else
        match d.set? opt v with
        | some d => take d rest
        | none => .refused

/-- What the arguments ask for. -/
def parse (args : List Bytes) : Request :=
  take {} args

end Command

end NodeLogs
