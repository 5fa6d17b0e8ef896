import NodeLogs.Tree.Disk

/-! Work on a disk, call by call. A piece of work is a tree: it is done with a
result, or it makes a call and goes on with the answer. So work can be run at a
stretch, and the calls of several pieces can also take turns. -/

namespace NodeLogs

/-- What work may ask of the disk. -/
inductive Call where
  | isDir (p : Path)
  | isFile (p : Path)
  | list (p : Path)
  | makeDir (p : Path)
  | create (p : Path)
  | openRead (p : Path)
  | read (h : Handle) (limit : Nat)
  | write (h : Handle) (bs : Bytes)

namespace Call

/-- The kind of answer that a call gets. -/
@[reducible] def Answer : Call → Type
  | isDir _ => Bool
  | isFile _ => Bool
  | list _ => Except OsError (List (Name × Bool))
  | makeDir _ => Except OsError Unit
  | create _ => Except OsError Handle
  | openRead _ => Except OsError (Handle × Nat)
  | read .. => Except OsError (Bytes × Handle)
  | write .. => Written

end Call

/-- Carries a call out. -/
def Disk.answer (disk : Disk) : (c : Call) → Disk × c.Answer
  | .isDir p => (disk, disk.isDir p)
  | .isFile p => (disk, disk.isFile p)
  | .list p => (disk, disk.list p)
  | .makeDir p => disk.makeDir p
  | .create p => disk.create p
  | .openRead p => (disk, disk.openRead p)
  | .read h limit => disk.read h limit
  | .write h bs => disk.write h bs

inductive Work (α : Type) where
  | done (a : α)
  | call (c : Call) (next : c.Answer → Work α)

namespace Work

variable {α β γ : Type}

protected def bind : Work α → (α → Work β) → Work β
  | done a, f => f a
  | call c next, f => call c fun answer => (next answer).bind f

instance : Monad Work where
  pure := done
  bind := Work.bind

protected theorem bind_done (w : Work α) : w.bind done = w := by
  induction w with
  | done a => rfl
  | call c next ih => exact congrArg (call c) (funext ih)

protected theorem bind_assoc (w : Work α) (f : α → Work β) (g : β → Work γ) :
    (w.bind f).bind g = w.bind fun a => (f a).bind g := by
  induction w with
  | done a => rfl
  | call c next ih => exact congrArg (call c) (funext ih)

instance : LawfulMonad Work :=
  LawfulMonad.mk' Work Work.bind_done (fun _ _ => rfl) Work.bind_assoc

/-- A single call. -/
def ask (c : Call) : Work c.Answer :=
  call c done

/-- Runs work at a stretch. -/
def run : Work α → Disk → Disk × α
  | done a, disk => (disk, a)
  | call c next, disk => (next (disk.answer c).2).run (disk.answer c).1

@[simp] theorem run_pure (a : α) (disk : Disk) : (pure a : Work α).run disk = (disk, a) := rfl

@[simp] theorem run_done (a : α) (disk : Disk) : (done a).run disk = (disk, a) := rfl

@[simp] theorem run_ask (c : Call) (disk : Disk) : (ask c).run disk = disk.answer c := rfl

@[simp] theorem run_bind (w : Work α) (f : α → Work β) (disk : Disk) :
    (w >>= f).run disk = (f (w.run disk).2).run (w.run disk).1 := by
  induction w generalizing disk with
  | done a => rfl
  | call c next ih => exact ih _ _

/-- Makes a directory and those above it that are missing. The path of a
directory comes before the paths of those above. -/
def makeDirs : List Path → Work (Except OsError Unit)
  | [] => pure (.ok ())
  | p :: above => do
    match ← ask (.makeDir p) with
    | .ok () => pure (.ok ())
    | .error .notFound =>
      match ← makeDirs above with
      | .error e => pure (.error e)
      | .ok () => settle p (← ask (.makeDir p))
    | .error e => settle p (.error e)
where
  /-- A directory that could not be made may be there already. -/
  settle (p : Path) (made : Except OsError Unit) : Work (Except OsError Unit) :=
    match made with
    | .ok () => pure (.ok ())
    | .error e => do
      if ← ask (.isDir p) then pure (.ok ()) else pure (.error e)

/-- Makes a directory with all above it. -/
def makeAllDirs (p : Path) : Work (Except OsError Unit) :=
  makeDirs p.ancestors

end Work

end NodeLogs
