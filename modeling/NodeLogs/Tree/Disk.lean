import NodeLogs.Sorting
import NodeLogs.Tree.Lookup

/-! A disk: a tree, the working directory, and what its devices do beside
storing bytes. Open files are handles. A handle goes on denoting the file it was
opened on, also after the file's name is gone.

Of permissions there is only that a file may be locked against reading: `list` and
`create` never fail for lack of permission. A file has one place in the tree, so
there are no hard links, and a path may be of any length. -/

namespace NodeLogs

/-- How devices behave from here on. For a file that is not mentioned, reads
deliver what was asked for and writes are accepted. -/
structure Faults where
  /-- The next reads of a file deliver at most so many bytes, but at least one. -/
  reads : List (Place × Nat) := []
  /-- The next writes to a file are accepted, or refused after so many bytes. -/
  writes : List (Place × Option Nat) := []
  deriving DecidableEq

/-- Takes the first item for a place off a list. -/
def takeFor? (place : Place) : List (Place × α) → Option (α × List (Place × α))
  | [] => none
  | (p, a) :: rest =>
    if p = place then some (a, rest)
    else (takeFor? place rest).map fun (b, rest) => (b, (p, a) :: rest)

structure Disk where
  root : Node
  cwd : Place
  /-- How many nodes were removed so far, which dates the files that are made. -/
  removals : Nat := 0
  faults : Faults := {}

/-- An open file and how far it has been read or written. -/
structure Handle where
  place : Place
  born : Nat
  offset : Nat
  deriving DecidableEq

/-- What became of a write: how many bytes were taken, and why not more. -/
structure Written where
  handle : Handle
  taken : Nat
  refusal : Option OsError

/-- Writes over bytes from an offset on; a gap before it is filled with zeros. -/
def splice (old : Bytes) (offset : Nat) (new : Bytes) : Bytes :=
  old.take offset ++ List.replicate (offset - old.length) 0 ++ new ++ old.drop (offset + new.length)

@[simp] theorem splice_nil (old : Bytes) (offset : Nat) (h : offset ≤ old.length) :
    splice old offset [] = old := by
  simp [splice, Nat.sub_eq_zero_of_le h]

/-- Writing at the end adds to the bytes. -/
@[simp] theorem splice_length (old new : Bytes) : splice old old.length new = old ++ new := by
  simp [splice]

namespace Disk

/-! ### Looking -/

def locate (disk : Disk) (followLast : Bool) (p : Path) : Except OsError Spot :=
  disk.root.locate disk.cwd followLast p

/-- The node that a path names, links followed. -/
def node (disk : Disk) (p : Path) : Except OsError Node :=
  match disk.locate true p with
  | .error e => .error e
  | .ok (.free ..) => .error .notFound
  | .ok (.found place) =>
    match disk.root.at? place with
    | some n => .ok n
    | none => .error .notFound

def isDir (disk : Disk) (p : Path) : Bool :=
  match disk.node p with
  | .ok n => n.isDir
  | .error _ => false

/-- Is it a regular file? -/
def isFile (disk : Disk) (p : Path) : Bool :=
  match disk.node p with
  | .ok n => n.isFile
  | .error _ => false

/-- The names in a directory as the system lists them, and which are directories themselves. -/
def list (disk : Disk) (p : Path) : Except OsError (List (Name × Bool)) :=
  match disk.node p with
  | .error e => .error e
  | .ok (.dir es) => .ok (es.map fun (name, n) => (name, n.isDir))
  | .ok _ => .error .notADirectory

/-! ### Making directories and files -/

/-- A directory's path without the slashes at its end. -/
def withoutSlashes (p : Path) : Path :=
  match p.bytes.reverse.dropWhile (· = Path.slash) with
  | [] => if p.bytes.isEmpty then p else ⟨[Path.slash]⟩
  | bs => ⟨bs.reverse⟩

def makeDir (disk : Disk) (p : Path) : Disk × Except OsError Unit :=
  match disk.locate false (withoutSlashes p) with
  | .error e => (disk, .error e)
  | .ok (.found _) => (disk, .error .alreadyExists)
  | .ok (.free dir name) =>
    ({ disk with root := disk.root.put (dir ++ [name]) (.dir []) }, .ok ())

/-- Opens a file for writing: it is made, or emptied if it is there. A slash at
the end of its path makes it a directory. -/
def create (disk : Disk) (p : Path) : Disk × Except OsError Handle :=
  if p.endsInSlash then
    match disk.locate false (withoutSlashes p) with
    | .error e => (disk, .error e)
    | .ok _ => (disk, .error .isADirectory)
  else
    match disk.locate true p with
    | .error e => (disk, .error e)
    | .ok (.free dir name) =>
      let place := dir ++ [name]
      ({ disk with root := disk.root.put place (.file disk.removals [] .normal) },
        .ok ⟨place, disk.removals, 0⟩)
    | .ok (.found place) =>
      match disk.root.at? place with
      | some (.file born _ access) =>
        ({ disk with root := disk.root.put place (.file born [] access) }, .ok ⟨place, born, 0⟩)
      | some (.dir _) => (disk, .error .isADirectory)
      | _ => (disk, .ok ⟨place, 0, 0⟩)

/-! ### Reading and writing -/

/-- Opens for reading; says how long the file is now. -/
def openRead (disk : Disk) (p : Path) : Except OsError (Handle × Nat) :=
  match disk.locate true p with
  | .error e => .error e
  | .ok (.free ..) => .error .notFound
  | .ok (.found place) =>
    match disk.root.at? place with
    | some (.file _ _ .locked) => .error .permissionDenied
    | some (.file born bytes _) => .ok (⟨place, born, 0⟩, bytes.length)
    | _ => .ok (⟨place, 0, 0⟩, 0)

/-- Reads at most `limit` bytes; none at the end of the file. -/
def read (disk : Disk) (h : Handle) (limit : Nat) : Disk × Except OsError (Bytes × Handle) :=
  match disk.root.at? h.place with
  | some (.file born bytes access) =>
    if born = h.born then
      match bytes.drop h.offset with
      | [] => (disk, if access = .broken then .error .inputOutput else .ok ([], h))
      | rest =>
        let (limit, faults) := match takeFor? h.place disk.faults.reads with
          | some (most, reads) => (min limit (max most 1), { disk.faults with reads })
          | none => (limit, disk.faults)
        let bs := rest.take limit
        ({ disk with faults }, .ok (bs, { h with offset := h.offset + bs.length }))
    else (disk, .ok ([], h))
  | some (.dir _) => (disk, .error .isADirectory)
  | some (.device .full) => (disk, .ok (List.replicate limit 0, h))
  | _ => (disk, .ok ([], h))

/-- Writes bytes at a handle's offset; a refusal may come after some of them. -/
def write (disk : Disk) (h : Handle) (bs : Bytes) : Disk × Written :=
  match disk.root.at? h.place with
  | some (.device .full) => (disk, ⟨h, 0, some .noSpace⟩)
  | some (.file born old access) =>
    if born = h.born then
      let (taken, faults) := match takeFor? h.place disk.faults.writes with
        | some (some most, writes) => (min most bs.length, { disk.faults with writes })
        | some (none, writes) => (bs.length, { disk.faults with writes })
        | none => (bs.length, disk.faults)
      let new := splice old h.offset (bs.take taken)
      ({ disk with root := disk.root.put h.place (.file born new access), faults },
        ⟨{ h with offset := h.offset + taken }, taken,
          if taken < bs.length then some .noSpace else none⟩)
    else (disk, ⟨h, bs.length, none⟩)
  | _ => (disk, ⟨h, bs.length, none⟩)

/-! ### Setting a tree up -/

/-- Makes a link; it is never a directory, so its path has no slash at the end. -/
def link (disk : Disk) (p target : Path) : Disk × Except OsError Unit :=
  if target.bytes.contains 0 then (disk, .error .zeroByte)
  else if target.bytes.isEmpty then (disk, .error .notFound)
  else
    match disk.locate false (withoutSlashes p) with
    | .error e => (disk, .error e)
    | .ok (.found _) => (disk, .error .alreadyExists)
    | .ok (.free dir name) =>
      if p.endsInSlash then (disk, .error .notFound)
      else ({ disk with root := disk.root.put (dir ++ [name]) (.link target) }, .ok ())

/-- Removes a node with all below it; a link goes and what it names stays. -/
def remove (disk : Disk) (p : Path) : Disk × Except OsError Unit :=
  match disk.locate false p with
  | .error e => (disk, .error e)
  | .ok (.free ..) => (disk, .error .notFound)
  | .ok (.found place) =>
    ({ disk with root := disk.root.erase place, removals := disk.removals + 1 }, .ok ())

/-- All bytes of a file. -/
def contents (disk : Disk) (p : Path) : Except OsError Bytes :=
  match disk.openRead p with
  | .error e => .error e
  | .ok (h, _) =>
    match disk.root.at? h.place with
    | some (.file _ _ .broken) => .error .inputOutput
    | some (.file _ bytes _) => .ok bytes
    | some (.dir _) => .error .isADirectory
    | _ => .ok []

/-- The regular files directly inside a directory, links left out, by name. -/
def filesIn (disk : Disk) (p : Path) : List (Name × Bytes) :=
  match disk.node p with
  | .ok (.dir es) =>
    sortBy (fun a b => decide (a.1 < b.1)) <| es.filterMap fun (name, n) => match n with
      | .file _ bytes _ => some (name, bytes)
      | _ => none
  | _ => []

end Disk

end NodeLogs
