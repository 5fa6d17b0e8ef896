import NodeLogs.Filter.Relevance
import NodeLogs.Record.Basic
import NodeLogs.Record.Payload
import NodeLogs.Text.Digit

/-! Log lines:

  time [thread] LEVEL target:line message

A line is read from the front, each part as far as its characters go; only the
target is cut from the back, at the last colon before the blank. -/

namespace NodeLogs

namespace Line

/-- A line in its parts, before anything is decided about it. -/
structure Parts where
  stamp : Text
  thread : Text
  level : Text
  target : Text
  line : Nat
  msg : Text

/-- Without one line feed at the end, and then without one carriage return. -/
def dropEnding (raw : Text) : Text :=
  dropLast? '\r' (dropLast? '\n' raw)
where
  /-- Takes a character off the end if it stands there. -/
  dropLast? (c : Char) (cs : Text) : Text :=
    if cs.getLast? = some c then cs.dropLast else cs

/-- The time down to the second; `d` stands for a digit. -/
def stampShape : Text := "dddd-dd-ddTdd:dd:dd".toList

/-- Takes characters of a shape off the front: what they are, and the rest. -/
def takeShape? : Text → Text → Option (Text × Text)
  | [], cs => some ([], cs)
  | _ :: _, [] => none
  | slot :: shape, c :: cs =>
    if (if slot = 'd' then isScriptDigit c else c = slot) then
      (takeShape? shape cs).map fun (taken, rest) => (c :: taken, rest)
    else none

/-- The part of a second with its point; empty if there is none. -/
def takeFraction? : Text → Option (Text × Text)
  | '.' :: cs =>
    match cs.span isScriptDigit with
    | ([], _) => none
    | (digits, rest) => some ('.' :: digits, rest)
  | cs => some ([], cs)

/-- Takes one given character off the front. -/
def takeChar? (c : Char) : Text → Option Text
  | d :: cs => if d = c then some cs else none
  | [] => none

/-- At least one character of a class. -/
def takeSome? (p : Char → Bool) (cs : Text) : Option (Text × Text) :=
  match cs.span p with
  | ([], _) => none
  | (taken, rest) => some (taken, rest)

/-- The time: to the second or finer, in UTC. -/
def takeStamp? (cs : Text) : Option (Text × Text) := do
  let (second, cs) ← takeShape? stampShape cs
  let (fraction, cs) ← takeFraction? cs
  let cs ← takeChar? 'Z' cs
  return (second ++ fraction ++ ['Z'], cs)

/-- Target and line number, between which stands the last colon. -/
def splitTarget? (cs : Text) : Option (Text × Nat) := do
  let (target, digits) ← Text.cutAtLast? ':' cs
  let line ← readWord? digits
  if target.isEmpty then none else return (target, line)

def isLevelLetter (c : Char) : Bool :=
  'A' ≤ c && c ≤ 'Z'

def parts? (raw : Text) : Option Parts := do
  let (stamp, cs) ← takeStamp? (dropEnding raw)
  let (_, cs) ← takeSome? isBlank cs
  let cs ← takeChar? '[' cs
  let (thread, cs) ← takeSome? (· ≠ ']') cs
  let cs ← takeChar? ']' cs
  let (_, cs) ← takeSome? isBlank cs
  let (level, cs) ← takeSome? isLevelLetter cs
  let (_, cs) ← takeSome? isBlank cs
  let (origin, cs) ← takeSome? (!isBlank ·) cs
  let (target, line) ← splitTarget? origin
  let (_, msg) ← takeSome? isBlank cs
  if msg.contains '\n' then none
  else return { stamp, thread, level, target, line, msg }

namespace Parts

/-- The record of a line, with its payload decoded. -/
def toRecord (p : Parts) : Record :=
  let payload := payload? p.msg
  { stamp := p.stamp
    thread := p.thread
    level := p.level
    target := p.target
    line := p.line
    msg := p.msg
    payload
    event := payload.bind eventOf?
    fields := payload.elim {} Correlation.ofPayload }

end Parts

/-- The record of a line that is in the grammar and relevant. -/
def parse? (relevance : Relevance) (raw : Text) : Option Record := do
  let record := (← parts? raw).toRecord
  if relevance.accepts record.event record.msg then return record else none

end Line

end NodeLogs
