import NodeLogs.Command.Execute

/-! The program. Work is carried out call by call on the files of the system, and
what the command has to tell goes to the standard streams. -/

namespace NodeLogs

namespace Program

/-- The files that were opened; `born` of a handle is the place of its file in here. -/
abbrev Files := IO.Ref (Array IO.FS.Handle)

/-- The name of a path for the system. -/
def nameOf (p : Path) : String :=
  String.ofList p.display

/-- The number of an error of the system. -/
def errorNumber : IO.Error → Nat
  | .alreadyExists _ n _ => n.toNat
  | .noFileOrDirectory _ n _ => n.toNat
  | .invalidArgument _ n _ => n.toNat
  | .permissionDenied _ n _ => n.toNat
  | .resourceExhausted _ n _ => n.toNat
  | .inappropriateType _ n _ => n.toNat
  | .noSuchThing _ n _ => n.toNat
  | .hardwareFault n _ => n.toNat
  | .illegalOperation n _ => n.toNat
  | .otherError n _ => n.toNat
  | _ => 0

/-- The reason for a refusal, by its number. -/
def reason (e : IO.Error) : OsError :=
  match errorNumber e with
  | 2 => .notFound
  | 13 => .permissionDenied
  | 17 => .alreadyExists
  | 20 => .notADirectory
  | 21 => .isADirectory
  | 28 => .noSpace
  | 36 => .nameTooLong
  | 40 => .tooManyLinks
  | _ => .inputOutput

def attempt {α : Type} (act : IO α) : IO (Except OsError α) :=
  tryCatch (Except.ok <$> act) fun e => pure (.error (reason e))

def kindOf? (p : Path) : IO (Option IO.FS.FileType) := do
  match ← attempt (System.mkFilePath [nameOf p]).metadata with
  | .ok found => return some found.type
  | .error _ => return none

def openFile (files : Files) (p : Path) (mode : IO.FS.Mode) : IO Handle := do
  let file ← IO.FS.Handle.mk (nameOf p) mode
  let opened ← files.get
  files.set (opened.push file)
  return ⟨[], opened.size, 0⟩

/-- The entries of a directory, and which are directories themselves. -/
def listDir (p : Path) : IO (List (Name × Bool)) := do
  let entries ← (System.mkFilePath [nameOf p]).readDir
  entries.toList.mapM fun entry => do
    return (Utf8.encode entry.fileName.toList, (← entry.path.symlinkMetadata).type == .dir)

/-- Carries one call out. -/
def answer (files : Files) : (c : Call) → IO c.Answer
  | .isDir p => return (← kindOf? p) == some .dir
  | .isFile p => return (← kindOf? p) == some .file
  | .list p => attempt (listDir p)
  | .makeDir p => attempt (IO.FS.createDir (nameOf p))
  | .create p => attempt (openFile files p .write)
  | .openRead p => attempt do
    let handle ← openFile files p .read
    return (handle, (← (System.mkFilePath [nameOf p]).metadata).byteSize.toNat)
  | .read handle limit => attempt do
    match (← files.get)[handle.born]? with
    | some file => return ((← file.read limit.toUSize).toList, handle)
    | none => return ([], handle)
  | .write handle bytes => do
    match (← files.get)[handle.born]? with
    | none => return ⟨handle, bytes.length, none⟩
    | some file =>
      match ← attempt (do file.write ⟨bytes.toArray⟩; file.flush) with
      | .ok () => return ⟨handle, bytes.length, none⟩
      | .error e => return ⟨handle, 0, some e⟩

/-- Carries work out to its end. -/
def carryOut {α : Type} (files : Files) : Work α → IO α
  | .done a => pure a
  | .call c next => do
    let a ← answer files c
    carryOut files (next a)

/-- Directories within one another: a path has at most 4096 bytes, so no more can be reached. -/
def reach : Nat := 4096

def environment : IO Command.Environment := do
  let get (name : String) : IO (Option Text) := return (← IO.getEnv name).map String.toList
  return { testName := ← get "TEST_NAME", schedType := ← get "SCHED_TYPE", log := ← get "RUST_LOG" }

/-- Prints what comes of the command line. -/
def tell : Command.Result → IO Unit
  | .help => Command.helpLines.forM fun line => IO.println line
  | .version => IO.println Command.versionLine
  | .refused => do
    IO.eprintln "error: the arguments are not valid"
    IO.eprintln Command.usageLine
  | .ended _ notices failure => do
    notices.forM fun notice => IO.eprintln (String.ofList notice.render)
    failure.toList.forM fun line => IO.eprintln (String.ofList line)

end Program

end NodeLogs

open NodeLogs in
def main (args : List String) : IO UInt32 := do
  let files ← IO.mkRef #[]
  let arguments := args.map fun arg => Utf8.encode arg.toList
  let result ← Program.carryOut files
    (Command.run Program.reach (← Program.environment) arguments)
  Program.tell result
  return result.status.toUInt32
