import NodeLogs.Keyed
import NodeLogs.Tree.Path

/-! File trees as values. A place in a tree is the list of names that leads to
it from the top; nothing here follows links. The order of a directory's entries
is the order in which the system lists them. -/

namespace NodeLogs

/-- What reading a regular file comes to. -/
inductive Access where
  /-- Its bytes and then its end. -/
  | normal
  /-- Its bytes and then an error. -/
  | broken
  /-- It cannot be opened for reading. -/
  | locked
  deriving DecidableEq, Repr

/-- Files that hold no bytes. -/
inductive Device where
  /-- Takes all that is written. -/
  | null
  /-- Takes nothing, and reads as zero bytes without end. -/
  | full
  deriving DecidableEq, Repr

/-- A tree. Together with its place, `born` tells a file from others that were
there before or come after it. -/
inductive Node where
  | dir (entries : List (Name × Node))
  | file (born : Nat) (bytes : Bytes) (access : Access)
  | link (target : Path)
  | device (kind : Device)
  deriving Inhabited

/-- A place in a tree: the names from the top down. -/
abbrev Place := List Name

namespace Node

def isDir : Node → Bool
  | dir _ => true
  | _ => false

def isFile : Node → Bool
  | file .. => true
  | _ => false

def entries : Node → List (Name × Node)
  | dir es => es
  | _ => []

def child? (n : Node) (name : Name) : Option Node :=
  n.entries.lookup name

/-- The node at a place. -/
def at? : Node → Place → Option Node
  | n, [] => some n
  | n, name :: place =>
    match n.child? name with
    | some c => c.at? place
    | none => none

/-- Changes, adds or removes the node at a place whose directory is there. -/
def alter (f : Option Node → Option Node) : Place → Node → Node
  | [name], dir es => dir (Keyed.alter f name es)
  | name :: place, dir es => dir (Keyed.alter (fun c => c.map (alter f place)) name es)
  | _, n => n

/-- Puts a node at a place, over what is there. -/
def put (n : Node) (place : Place) (v : Node) : Node :=
  n.alter (fun _ => some v) place

def erase (n : Node) (place : Place) : Node :=
  n.alter (fun _ => none) place

mutual

/-- How many directories lie within one another. -/
def height : Node → Nat
  | dir es => heights es + 1
  | _ => 0

def heights : List (Name × Node) → Nat
  | [] => 0
  | (_, n) :: es => max n.height (heights es)

end

end Node

end NodeLogs
