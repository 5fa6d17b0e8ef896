import NodeLogs.Discovery.Walk
import NodeLogs.Filter.Levels
import NodeLogs.Line.Parser
import NodeLogs.Output.Writer
import NodeLogs.Report.Notice

/-! Filtering the lines of a log. Lines are cut at line feeds before they are
decoded; a last line without one counts, but not if reading fails in it. -/

namespace NodeLogs

/-- Which lines are kept. -/
structure Selection where
  relevance : Relevance
  levels : Levels

namespace Selection

/-- The record of a line that is kept. -/
def keep? (selection : Selection) (line : Bytes) : Option Record :=
  (Line.parse? selection.relevance (Utf8.decodeLossy line)).filter fun r =>
    selection.levels.allows r.level

end Selection

/-- How far a run has come. -/
structure Progress where
  writer : Writer
  counts : Counts := {}
  /-- What is to be told, the latest first. -/
  notices : List Notice := []
  failure : Option SinkError := none

namespace Progress

def isOver (p : Progress) : Bool :=
  p.failure.isSome

def tell (p : Progress) (n : Notice) : Progress :=
  { p with notices := n :: p.notices }

end Progress

/-- How many bytes are asked for at a time. -/
def chunkSize : Nat := 8192

/-- Cuts after the first line feed. -/
def cutLine? (bs : Bytes) : Option (Bytes × Bytes) :=
  match bs.dropWhile (· ≠ 0x0A) with
  | feed :: rest => some (bs.takeWhile (· ≠ 0x0A) ++ [feed], rest)
  | [] => none

theorem cutLine?_append_feed {cs : Bytes} (h : 0x0A ∉ cs) (rest : Bytes) :
    cutLine? (cs ++ 0x0A :: rest) = some (cs ++ [0x0A], rest) := by
  have hall : ∀ b ∈ cs, decide (b ≠ 0x0A) = true := fun b hb =>
    decide_eq_true fun hfeed => h (hfeed ▸ hb)
  unfold cutLine?
  rw [List.takeWhile_append_of_pos hall, List.dropWhile_append_of_pos hall]
  simp

theorem cutLine?_eq_none {bs : Bytes} (h : 0x0A ∉ bs) : cutLine? bs = none := by
  have hall : ∀ b ∈ bs, decide (b ≠ 0x0A) = true := fun b hb =>
    decide_eq_true fun hfeed => h (hfeed ▸ hb)
  have hrest : (bs ++ []).dropWhile (fun b => decide (b ≠ 0x0A)) = [].dropWhile _ :=
    List.dropWhile_append_of_pos hall
  rw [List.append_nil, List.dropWhile_nil] at hrest
  unfold cutLine?
  rw [hrest]

namespace Selection

/-- Takes one line in: it is counted, and written if it is kept. -/
def takeLine (selection : Selection) (file : LogFile) (line : Bytes) (p : Progress) :
    Work Progress :=
  let p := { p with counts := p.counts + ⟨1, 0⟩ }
  match selection.keep? line with
  | none => pure p
  | some r => do
    match ← p.writer.write r file.path file.node with
    | (writer, some e) => return { p with writer, failure := some e }
    | (writer, none) => return { p with writer, counts := p.counts + ⟨0, 1⟩ }

/-- Takes the lines of an open log in, in at most so many steps. Each takes a
line that is complete in `pending`, or reads more. -/
def takeLines (selection : Selection) (file : LogFile) :
    Nat → Handle → Bytes → Progress → Work Progress
  | 0, _, _, p => pure p
  | steps + 1, h, pending, p =>
    match cutLine? pending with
    | some (line, rest) => do
      let p ← selection.takeLine file line p
      if p.isOver then return p else takeLines selection file steps h rest p
    | none => do
      match ← Work.ask (.read h chunkSize) with
      | .error e => return p.tell (.stoppedReading file.path e)
      | .ok ([], h) =>
        if pending.isEmpty then return p
        else
          let p ← selection.takeLine file pending p
          if p.isOver then return p else takeLines selection file steps h [] p
      | .ok (bs, h) => takeLines selection file steps h (pending ++ bs) p

/-- Steps enough for a log of a length: it has no more lines than bytes, and no
more reads. The rest is for a log that grows while it is read. -/
def stepLimit (size : Nat) : Nat :=
  2 * size + wordLimit

/-- Takes a log in; one that cannot be opened is passed over. -/
def takeLog (selection : Selection) (file : LogFile) (p : Progress) : Work Progress := do
  match ← Work.ask (.openRead file.path) with
  | .error e => return p.tell (.skippedLog file.path e)
  | .ok (h, size) => selection.takeLines file (stepLimit size) h [] p

end Selection

end NodeLogs
