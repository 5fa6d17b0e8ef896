import NodeLogs.Text.Blank
import NodeLogs.Text.Uppercase

/-! Level filters: the set of levels that pass. The empty set lets every level
pass. -/

namespace NodeLogs

/-- The levels that pass, in ascending order and each once. -/
structure Levels where
  allowed : List Text
  deriving DecidableEq

namespace Levels

/-- Texts in the order of their characters' code points. -/
def before (a b : Text) : Bool :=
  decide (a < b)

/-- Adds a level in its place. -/
def insert (level : Text) : List Text → List Text
  | [] => [level]
  | l :: ls =>
    if level = l then l :: ls
    else if before level l then level :: l :: ls
    else l :: insert level ls

/-- An entry as it is compared: trimmed, in upper case. -/
def normal (entry : Text) : Text :=
  Text.upper (Text.trim entry)

/-- Blank entries are left out. -/
def ofEntries (entries : List Text) : Levels :=
  ⟨((entries.map normal).filter fun level => !level.isEmpty).foldl (fun ls l => insert l ls) []⟩

/-- The entries between commas. -/
def ofList (list : Text) : Levels :=
  ofEntries (splitAll ',' list)

def all : Levels := ⟨[]⟩

def isEmpty (levels : Levels) : Bool :=
  levels.allowed.isEmpty

/-- Does a level, as written in the log, pass? -/
def allows (levels : Levels) (level : Text) : Bool :=
  levels.isEmpty || levels.allowed.contains level

end Levels

end NodeLogs
