import NodeLogs.Discovery.FileName
import NodeLogs.Sorting
import NodeLogs.Tree.Work

/-! The walk through a directory to its node logs: depth first, the entries of
each directory by name. Links to directories are not entered, apart from the
start; links to files count as files. A directory is listed when the walk gets
to it, so that what happens to the logs found before can bear on it. -/

namespace NodeLogs

/-- A node's log. -/
structure LogFile where
  path : Path
  node : Nat
  deriving DecidableEq

namespace Walk

variable {σ : Type}

/-- The log at a path, if its name says so and a regular file is there. -/
def logAt? (p : Path) : Work (Option LogFile) :=
  match NodeLog.nodeOfName? (p.fileName?.getD p.bytes) with
  | none => pure none
  | some node => do
    if ← Work.ask (.isFile p) then return some ⟨p, node⟩ else return none

/-- Entries by the bytes of their names. -/
def sortEntries (entries : List (Name × Bool)) : List (Name × Bool) :=
  sortBy (fun a b => decide (a.1 < b.1)) entries

/-- What a walk does: `visit` takes a log in, and nothing more is looked at once
`isOver` holds. -/
structure Visitor (σ : Type) where
  visit : LogFile → σ → Work σ
  isOver : σ → Bool

/-- Goes through entries, with a way to go through what lies below each. -/
def entries (v : Visitor σ) (below : Path → Bool → σ → Work σ) (dir : Path) :
    List (Name × Bool) → σ → Work σ
  | [], s => pure s
  | (name, isDir) :: rest, s =>
    if v.isOver s then pure s
    else do
      let s ← below (dir.child name) isDir s
      entries v below dir rest s

/-- Walks from a path down at most so many directories. -/
def descend (v : Visitor σ) : Nat → Path → Bool → σ → Work σ
  | depth, p, isDir, s => do
    let s ← match ← logAt? p with
      | some file => v.visit file s
      | none => pure s
    if isDir then
      match depth with
      | 0 => return s
      | depth + 1 =>
        match ← Work.ask (.list p) with
        | .error _ => return s
        | .ok es => entries v (descend v depth) p (sortEntries es) s
    else return s

/-- Walks through all below a path. `reach` is how many directories may lie
within one another. -/
def walk (v : Visitor σ) (reach : Nat) (start : Path) (s : σ) : Work σ := do
  descend v reach start (← Work.ask (.isDir start)) s

end Walk

/-- The logs below a path, in the order of the walk. -/
def logFiles (reach : Nat) (start : Path) : Work (List LogFile) := do
  let found ← Walk.walk ⟨fun file s => pure (file :: s), fun _ => false⟩ reach start []
  return found.reverse

/-- Is there a log below the path? -/
def looksLikeRun (reach : Nat) (p : Path) : Work Bool :=
  Walk.walk ⟨fun _ _ => pure true, id⟩ reach p false

end NodeLogs
