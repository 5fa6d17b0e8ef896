import NodeLogs.Tree.Node
import NodeLogs.Tree.OsError

/-! What a path names. A path is followed step by step from the working
directory or from the top, through links; a step leads on only from a directory. -/

namespace NodeLogs

/-- What a path names: a node that is there, or a name that is free in a directory. -/
inductive Spot where
  | found (place : Place)
  | free (dir : Place) (name : Name)
  deriving DecidableEq

/-- The longest name that an entry may have. -/
def nameLimit : Nat := 255

/-- How many links are followed for one path. -/
def linkLimit : Nat := 40

namespace Path

/-- The steps of a path. A slash at the end is a step to where one is, which
only a directory allows. -/
def steps (p : Path) : List Name :=
  p.pieces.filter (!·.isEmpty) ++ if p.endsInSlash then [dot] else []

end Path

namespace Node

/-- Goes along steps from a directory; `follow` goes on where a link is met. -/
def walkSteps (root : Node) (followLast : Bool)
    (follow : Place → List Name → Except OsError Spot) :
    Place → List Name → Except OsError Spot
  | here, [] => .ok (.found here)
  | here, step :: rest =>
    if step = Path.dot then walkSteps root followLast follow here rest
    else if step = Path.dots then walkSteps root followLast follow here.dropLast rest
    else if nameLimit < step.length then .error .nameTooLong
    else
      match root.at? (here ++ [step]) with
      | none => if rest.isEmpty then .ok (.free here step) else .error .notFound
      | some (.dir _) => walkSteps root followLast follow (here ++ [step]) rest
      | some (.link target) =>
        if rest.isEmpty && !followLast then .ok (.found (here ++ [step]))
        else follow (if target.isAbsolute then [] else here) (target.steps ++ rest)
      | some _ =>
        if rest.isEmpty then .ok (.found (here ++ [step])) else .error .notADirectory

/-- Goes along steps and through at most so many links. -/
def walkLinks (root : Node) (followLast : Bool) : Nat → Place → List Name → Except OsError Spot
  | 0 => root.walkSteps followLast fun _ _ => .error .tooManyLinks
  | links + 1 => root.walkSteps followLast (root.walkLinks followLast links)

/-- What a path names, seen from a working directory. -/
def locate (root : Node) (cwd : Place) (followLast : Bool) (p : Path) : Except OsError Spot :=
  if p.bytes.contains 0 then .error .zeroByte
  else if p.bytes.isEmpty then .error .notFound
  else root.walkLinks followLast linkLimit (if p.isAbsolute then [] else cwd) p.steps

end Node

end NodeLogs
