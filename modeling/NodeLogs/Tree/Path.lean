import NodeLogs.Text.Utf8

/-! Paths: byte strings in which slashes separate names. A path is kept as it
was spelled; its components leave out what does not matter. -/

namespace NodeLogs

/-- The name of an entry of a directory. -/
abbrev Name := Bytes

/-- A path as it was spelled. -/
structure Path where
  bytes : Bytes
  deriving DecidableEq, Inhabited

/-- A step of a path. -/
inductive Component where
  | root
  | current
  | parent
  | normal (name : Name)
  deriving DecidableEq

namespace Component

/-- The kinds in their order: root, current, parent, names. -/
def rank : Component → Nat
  | root => 0
  | current => 1
  | parent => 2
  | normal _ => 3

def bytes : Component → Bytes
  | root => [0x2F]
  | current => [0x2E]
  | parent => [0x2E, 0x2E]
  | normal name => name

/-- By kind, and names by their bytes. -/
def before : Component → Component → Bool
  | normal a, normal b => decide (a < b)
  | a, b => a.rank < b.rank

end Component

namespace Path

def slash : UInt8 := 0x2F

def dot : Name := [0x2E]

def dots : Name := [0x2E, 0x2E]

def ofText (cs : Text) : Path := ⟨Utf8.encode cs⟩

def ofString (s : String) : Path := ofText s.toList

/-- The path as text, for messages and records. -/
def display (p : Path) : Text :=
  Utf8.decodeLossy p.bytes

def isAbsolute (p : Path) : Bool :=
  p.bytes.head? == some slash

def endsInSlash (p : Path) : Bool :=
  p.bytes.getLast? == some slash

/-- What stands between the slashes, empty pieces included. -/
def pieces (p : Path) : List Name :=
  splitAll slash p.bytes

/-- Puts a path below another: an absolute one replaces it, and a slash is
added unless the first is empty or has one at its end. -/
def join (p sub : Path) : Path :=
  if sub.isAbsolute then sub
  else if p.bytes.isEmpty || p.endsInSlash then ⟨p.bytes ++ sub.bytes⟩
  else ⟨p.bytes ++ slash :: sub.bytes⟩

/-- The path of an entry. -/
def child (p : Path) (name : Name) : Path :=
  p.join ⟨name⟩

/-- A piece as a component; empty pieces and single dots are none. -/
def componentOf? (piece : Name) : Option Component :=
  if piece.isEmpty || piece = dot then none
  else if piece = dots then some .parent
  else some (.normal piece)

/-- The components: repeated and final slashes and inner dots are left out, but
a dot at the very start is a component. -/
def components (p : Path) : List Component :=
  (if p.isAbsolute then [.root] else if p.pieces.head? == some dot then [.current] else []) ++
    p.pieces.filterMap componentOf?

/-- The last component, if it is a name. -/
def fileName? (p : Path) : Option Name :=
  match p.components.getLast? with
  | some (.normal name) => some name
  | _ => none

/-- Lexicographic by components, with a given order of equal ones. -/
def componentsBefore : List Component → List Component → Bool
  | _, [] => false
  | [], _ :: _ => true
  | a :: as, b :: bs => a.before b || (a == b && componentsBefore as bs)

/-- The order of paths: by their components and not by their spelling. -/
def before (p q : Path) : Bool :=
  componentsBefore p.components q.components

/-- The shortest spelling of components. -/
def ofComponents (cs : List Component) : Path :=
  cs.foldl (fun p c => p.join ⟨c.bytes⟩) ⟨[]⟩

/-- A path, then what lies above it, up to the last that is not empty. -/
def ancestors (p : Path) : List Path :=
  if p.bytes.isEmpty then []
  else
    p :: ((List.range (p.components.length - 1)).map fun k =>
      ofComponents (p.components.take (k + 1))).reverse

end Path

end NodeLogs
