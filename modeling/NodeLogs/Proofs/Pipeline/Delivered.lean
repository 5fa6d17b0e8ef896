import NodeLogs.Proofs.Pipeline.Counted
import NodeLogs.Proofs.Pipeline.Texts
import NodeLogs.Proofs.Text.Replacing

/-! Logs that are delivered. A reader hands out a log in chunks of any size, and then comes to its
end or fails. However the log is cut up, its lines are handed to the parser as they are cut out of
what the whole log is read as; and if the reader fails, it is as if the log had ended behind its
last line feed. -/

namespace NodeLogs

namespace Work

variable {α β : Type}

/-- Work whose reads are answered by a reader: with the chunks that it delivers, one after
another, and from then on with its end, or with the error it fails with. -/
def given : Work α → List Bytes → Option OsError → Work α
  | done a, _, _ => done a
  | call (.read h _) next, chunk :: chunks, failure =>
    (next (.ok (chunk, { h with offset := h.offset + chunk.length }))).given chunks failure
  | call (.read h _) next, [], none => (next (.ok ([], h))).given [] none
  | call (.read _ _) next, [], some e => (next (.error e)).given [] (some e)
  | call c next, chunks, failure => call c fun answer => (next answer).given chunks failure

/-- Work that reads nothing, whatever it is answered. -/
inductive Readless : Work α → Prop
  | done (a : α) : Readless (done a)
  | call {c : Call} {next : c.Answer → Work α} (hc : ∀ h limit, c ≠ .read h limit)
      (hnext : ∀ answer, Readless (next answer)) : Readless (call c next)

namespace Readless

theorem pure (a : α) : Readless (Pure.pure a : Work α) := .done a

theorem ask {c : Call} (hc : ∀ h limit, c ≠ .read h limit) : Readless (ask c) :=
  .call hc .done

theorem bind {w : Work α} {f : α → Work β} (h : w.Readless) (hf : ∀ a, (f a).Readless) :
    (w >>= f).Readless := by
  induction h with
  | done a => exact hf a
  | call hc _ ih => exact .call hc ih

/-- What a reader delivers is left for the work behind. -/
theorem given_bind {w : Work α} (h : w.Readless) (f : α → Work β) (chunks : List Bytes)
    (failure : Option OsError) :
    (w >>= f).given chunks failure = w >>= fun a => (f a).given chunks failure := by
  induction h with
  | done a => rfl
  | @call c next hc _ ih =>
    have hgiven : (Work.call c fun answer => next answer >>= f).given chunks failure =
        .call c fun answer => (next answer >>= f).given chunks failure := by
      cases c with
      | read h limit => exact absurd rfl (hc h limit)
      | isDir | isFile | list | makeDir | create | openRead | write => rfl
    exact hgiven.trans (congrArg (Work.call c) (funext ih))

end Readless

end Work

/-! ### Writers do not read -/

namespace Sink

variable (sink : Sink)

theorem create_readless (path : Path) : (create path).Readless := by
  refine .bind (.ask nofun) fun r => ?_
  cases r <;> exact .pure _

theorem flush_readless : sink.flush.Readless := by
  unfold flush
  split
  · exact .pure _
  · exact .bind (.ask nofun) fun _ => .pure _

theorem take_readless (piece : Bytes) : (sink.take piece).Readless := by
  unfold take
  split
  · exact .bind (.ask nofun) fun _ => .pure _
  · exact .pure _

theorem put_readless (piece : Bytes) : (sink.put piece).Readless := by
  unfold put
  split
  · refine .bind sink.flush_readless fun (sink, failure) => ?_
    cases failure with
    | some e => exact .pure _
    | none => exact sink.take_readless piece
  · exact sink.take_readless piece

theorem putLine_readless (line : Bytes) : (sink.putLine line).Readless := by
  refine .bind (sink.put_readless line) fun (sink, failure) => ?_
  cases failure with
  | some e => exact .pure _
  | none => exact .bind (sink.put_readless _) fun _ => .pure _

end Sink

namespace SinkPair

theorem create_readless (dir : Path) (name : Form → Text) : (create dir name).Readless := by
  refine .bind (Sink.create_readless _) fun r => ?_
  cases r with
  | error e => exact .pure _
  | ok json =>
    refine .bind (Sink.create_readless _) fun r => ?_
    cases r with
    | error e => exact .bind (.bind json.flush_readless fun _ => .pure _) fun _ => .pure _
    | ok plain => exact .pure _

theorem putLines_readless (pair : SinkPair) (json plain : Bytes) :
    (pair.putLines json plain).Readless := by
  refine .bind (pair.json.putLine_readless json) fun (sink, failure) => ?_
  cases failure with
  | some e => exact .pure _
  | none => exact .bind (pair.plain.putLine_readless plain) fun _ => .pure _

end SinkPair

theorem Writer.write_readless (w : Writer) (r : Record) (source : Path) (n : Nat) :
    (w.write r source n).Readless := by
  have hopen : (w.openPair n).Readless := by
    unfold openPair
    split
    · exact .pure _
    · exact SinkPair.create_readless _ _
  refine .bind hopen fun opened => ?_
  cases opened with
  | error e => exact .pure _
  | ok pair =>
    refine .bind (pair.putLines_readless _ _) fun (pair, failure) => ?_
    cases failure with
    | some e => exact .pure _
    | none => exact .bind (w.combined.putLines_readless _ _) fun _ => .pure _

/-! ### Strings for the parser -/

/-- Whether the end of what a reader delivers can be reached. -/
def accessOf : Option OsError → Access
  | none => .normal
  | some _ => .broken

/-- The lines of a log that can be read to its end are its pieces behind line feeds. -/
theorem linesOf_normal (bytes : Bytes) : linesOf .normal bytes = cutAfter 0x0A bytes := by
  induction bytes using separator_induction (0x0A : UInt8) with
  | last bytes h =>
    rw [linesOf_unended _ h, cutAfter_of_not_mem h]
    by_cases hbytes : bytes = [] <;> simp [hbytes]
  | piece line rest h ih => rw [linesOf_feed _ h, cutAfter_append h, ih]

/-- Without its end, a log has the lines in front of its last line feed. -/
theorem linesOf_broken {front rest : Bytes} (hended : front = [] ∨ front.getLast? = some 0x0A)
    (hrest : 0x0A ∉ rest) : linesOf .broken (front ++ rest) = cutAfter 0x0A front := by
  induction front using separator_induction (0x0A : UInt8) with
  | last front h =>
    obtain rfl := hended.resolve_right fun hlast => h (List.mem_of_getLast? hlast)
    rw [List.nil_append, linesOf_unended _ hrest]
    rfl
  | piece line front h ih =>
    have hended : front = [] ∨ front.getLast? = some 0x0A := by
      cases front with
      | nil => exact .inl rfl
      | cons b front =>
        rw [getLast?_append_cons_cons] at hended
        exact .inr (hended.resolve_left (by simp))
    rw [List.append_assoc, List.cons_append, linesOf_feed _ h, cutAfter_append h, ih hended]

namespace Selection

/-- Hands a string to the parser: it is counted, and written if a record comes of it that is
kept. -/
def takeString (selection : Selection) (file : LogFile) (string : Text) (p : Progress) :
    Work Progress :=
  let p := { p with counts := p.counts + ⟨1, 0⟩ }
  match (Line.parse? selection.relevance string).filter
    fun r => selection.levels.allows r.level with
  | none => pure p
  | some r => do
    match ← p.writer.write r file.path file.node with
    | (writer, some e) => return { p with writer, failure := some e }
    | (writer, none) => return { p with writer, counts := p.counts + ⟨0, 1⟩ }

/-- Hands strings to the parser, until a sink fails; what comes behind them can be read or not. -/
def takeStrings (selection : Selection) (file : LogFile) (failure : Option OsError) :
    List Text → Progress → Work Progress
  | [], p => pure (failure.elim p fun e => p.tell (.stoppedReading file.path e))
  | string :: strings, p => do
    let p ← selection.takeString file string p
    if p.isOver then return p else takeStrings selection file failure strings p

variable (selection : Selection) (file : LogFile)

/-- A line is decoded and handed to the parser. -/
theorem takeLine_eq (line : Bytes) (p : Progress) :
    selection.takeLine file line p = selection.takeString file (Utf8.decodeLossy line) p := rfl

theorem takeString_readless (string : Text) (p : Progress) :
    (selection.takeString file string p).Readless := by
  unfold takeString
  split
  · exact .pure _
  · refine .bind (Writer.write_readless _ _ _ _) fun (writer, failure) => ?_
    cases failure <;> exact .pure _

/-- However a log is delivered, its lines are cut out of the whole. -/
theorem takeLines_given {chunks : List Bytes} (hchunks : ∀ chunk ∈ chunks, chunk ≠ [])
    (failure : Option OsError) {steps : Nat} (h : Handle) (pending : Bytes) (p : Progress)
    (hsteps : 2 * chunks.flatten.length + pending.length < steps) :
    (selection.takeLines file steps h pending p).given chunks failure =
      selection.takeStrings file failure
        ((linesOf (accessOf failure) (pending ++ chunks.flatten)).map Utf8.decodeLossy) p := by
  induction steps generalizing h pending p chunks with
  | zero => cases hsteps
  | succ steps ih =>
    have htaken {line rest : Bytes} {chunks : List Bytes} (h : Handle)
        (hchunks : ∀ chunk ∈ chunks, chunk ≠ [])
        (hsteps : 2 * chunks.flatten.length + rest.length < steps) :
        (selection.takeLineThen file line (selection.takeLines file steps h rest) p).given
          chunks failure =
        selection.takeStrings file failure (Utf8.decodeLossy line ::
          (linesOf (accessOf failure) (rest ++ chunks.flatten)).map Utf8.decodeLossy) p := by
      rw [takeLineThen, takeLine_eq, (selection.takeString_readless file _ p).given_bind, takeStrings]
      congr 1
      funext p'
      split
      · rfl
      · exact ih hchunks h rest p' hsteps
    rcases cutLine?_cases pending with ⟨hfeed, hcut⟩ | ⟨cs, rest, hfeed, rfl, hcut⟩
    · rw [takeLines_of_uncut file hcut]
      cases chunks with
      | nil =>
        rw [List.flatten_nil, List.append_nil, linesOf_unended _ hfeed]
        rw [List.flatten_nil, List.length_nil] at hsteps
        cases failure with
        | some e => rfl
        | none =>
          change Work.given (if pending.isEmpty then _ else _) [] none = _
          by_cases hpending : pending = []
          · subst hpending
            rfl
          · have hlength := List.length_pos_iff.mpr hpending
            rw [if_neg (by simpa using hpending), if_pos ⟨by decide, hpending⟩]
            exact htaken h hchunks (by rw [List.flatten_nil, List.length_nil]; omega)
      | cons chunk chunks =>
        obtain ⟨hchunk, hrest⟩ := List.forall_mem_cons.mp hchunks
        obtain ⟨b, bs, rfl⟩ := List.exists_cons_of_ne_nil hchunk
        rw [List.flatten_cons, ← List.append_assoc]
        refine ih hrest _ (pending ++ b :: bs) p ?_
        rw [List.flatten_cons, List.length_append, List.length_cons] at hsteps
        rw [List.length_append, List.length_cons]
        omega
    · rw [takeLines_of_cut file hcut, List.append_assoc, List.cons_append, linesOf_feed _ hfeed,
        List.map_cons]
      refine htaken h hchunks ?_
      rw [List.length_append, List.length_cons] at hsteps
      omega

/-- Unless a sink fails, every string is counted. -/
theorem takeStrings_scanned (failure : Option OsError) (strings : List Text) (p : Progress) :
    (selection.takeStrings file failure strings p).Ends fun p' => p'.failure = none →
      p'.counts.scanned = p.counts.scanned + strings.length := by
  induction strings generalizing p with
  | nil => exact .pure fun _ => by cases failure <;> rfl
  | cons string strings ih =>
    have hstring : (selection.takeString file string p).Ends fun p' =>
        p'.counts.scanned = p.counts.scanned + 1 := by
      unfold takeString
      split
      · exact .pure rfl
      · refine .then _ fun (writer, failure) => ?_
        cases failure <;> exact .pure rfl
    refine .bind hstring fun p' hp' => ?_
    split
    next hover =>
      exact .pure fun hnone => by rw [Progress.isOver, hnone] at hover; cases hover
    next hgoing =>
      refine (ih p').mono (fun _ => id) fun p'' hp'' hnone => ?_
      rw [hp'' hnone, hp', List.length_cons]
      omega

/-- That reading failed is told, unless a sink has failed before, and changes nothing else. -/
theorem takeStrings_stopped (e : OsError) (strings : List Text) {p : Progress}
    (hp : p.isOver = false) :
    selection.takeStrings file (some e) strings p =
      (do
        let p ← selection.takeStrings file none strings p
        return if p.isOver then p else p.tell (.stoppedReading file.path e)) := by
  induction strings generalizing p with
  | nil =>
    change _ = pure (if p.isOver then p else _)
    rw [hp]
    rfl
  | cons string strings ih =>
    rw [takeStrings, takeStrings, bind_assoc]
    congr 1
    funext p'
    by_cases hover : p'.isOver = true
    · simp [hover]
    · simp [hover, ih (Bool.eq_false_iff.mpr hover)]

/-- How a log is taken in that a reader delivers in chunks. If the reader comes to its end, the
strings for the parser are what the whole log is read as, cut behind its line feeds, and they are
all counted unless a sink fails. If it fails, the log is taken in as if it had ended behind its
last line feed: the failure is told, and is not one of the run. -/
theorem takeLines_delivered {p : Progress} (hp : p.failure = none) {chunks : List Bytes}
    (hchunks : ∀ chunk ∈ chunks, chunk ≠ []) {bytes : Bytes} (hbytes : chunks.flatten = bytes)
    (h : Handle) {steps : Nat} (hsteps : 2 * bytes.length < steps) :
    (∃ text, (∀ cs, Utf8.Replaces bytes cs ↔ cs = text) ∧
      (selection.takeLines file steps h [] p).given chunks none =
        selection.takeStrings file none (cutAfter '\n' text) p ∧
      (cutAfter '\n' text).length =
        bytes.count 0x0A + (if bytes = [] ∨ bytes.getLast? = some 0x0A then 0 else 1) ∧
      ∀ disk p', (((selection.takeLines file steps h [] p).given chunks none).run disk).2 = p' →
        p'.failure = none →
          p'.counts.scanned = p.counts.scanned + (cutAfter '\n' text).length) ∧
    ∀ e, ∃ front rest, bytes = front ++ rest ∧ (front = [] ∨ front.getLast? = some 0x0A) ∧
      0x0A ∉ rest ∧
      ∀ pieces h', (∀ piece ∈ pieces, piece ≠ []) → pieces.flatten = front →
        (selection.takeLines file steps h [] p).given chunks (some e) = (do
          let p ← (selection.takeLines file steps h' [] p).given pieces none
          return if p.isOver then p else p.tell (.stoppedReading file.path e)) := by
  subst hbytes
  have hnormal {pieces : List Bytes} (hpieces : ∀ piece ∈ pieces, piece ≠ []) (h : Handle)
      (hlength : 2 * pieces.flatten.length < steps) :
      (selection.takeLines file steps h [] p).given pieces none =
        selection.takeStrings file none (cutAfter '\n' (Utf8.decodeLossy pieces.flatten)) p := by
    rw [selection.takeLines_given file hpieces none h [] p (by simpa using hlength),
      List.nil_append, accessOf, linesOf_normal, Utf8.map_decodeLossy_cutAfter]
  refine ⟨⟨Utf8.decodeLossy chunks.flatten, fun cs => Utf8.replaces_iff, hnormal hchunks h hsteps,
    ?_, ?_⟩, fun e => ?_⟩
  · rw [← Utf8.map_decodeLossy_cutAfter, List.length_map, length_cutAfter]
  · rintro disk _ rfl
    rw [hnormal hchunks h hsteps]
    exact (selection.takeStrings_scanned file none _ p).run disk
  · obtain ⟨front, rest, hfront, hended, hrest⟩ := exists_ended 0x0A chunks.flatten
    refine ⟨front, rest, hfront, hended, hrest, fun pieces h' hpieces hflatten => ?_⟩
    have hlength : 2 * pieces.flatten.length < steps := by
      rw [hflatten]
      rw [hfront, List.length_append] at hsteps
      omega
    rw [hnormal hpieces h' hlength, hflatten,
      selection.takeLines_given file hchunks (some e) h [] p (by simpa using hsteps),
      List.nil_append, accessOf, hfront, linesOf_broken hended hrest,
      Utf8.map_decodeLossy_cutAfter]
    exact selection.takeStrings_stopped file e _ (by rw [Progress.isOver, hp]; rfl)

/-- How the reading of a file comes to an end. -/
def failureOf (access : Access) : Option OsError :=
  if access = .broken then some .inputOutput else none

theorem takeEach_eq (access : Access) (lines : List Bytes) (p : Progress) :
    selection.takeEach file access lines p =
      selection.takeStrings file (failureOf access) (lines.map Utf8.decodeLossy) p := by
  induction lines generalizing p with
  | nil => cases access <;> rfl
  | cons line lines ih => simp only [takeEach, List.map_cons, takeStrings, takeLine_eq, ih]

theorem linesOf_accessOf (access : Access) (bytes : Bytes) :
    linesOf (accessOf (failureOf access)) bytes = linesOf access bytes := by
  cases access <;> simp [linesOf, accessOf, failureOf]

variable {selection file}

/-- An open log on a disk comes in as if it were delivered in any chunks. -/
theorem takeLines_mirrors_given {dir : Path} {disk : Disk} {p : Progress} {steps : Nat}
    {h : Handle} {bytes : Bytes} {access : Access} {chunks : List Bytes}
    (hchunks : ∀ chunk ∈ chunks, chunk ≠ []) (hleft : bytes.drop h.offset = chunks.flatten)
    (hsteps : 2 * chunks.flatten.length < steps) (hlog : isLogPlace h.place)
    (hplain : disk.Plain) (hp : p.writer.KeepsTo dir Outlet.At)
    (hfile : disk.root.at? h.place = some (.file h.born bytes access)) :
    Work.Mirrors disk (selection.takeLines file steps h [] p)
      ((selection.takeLines file steps h [] p).given chunks (failureOf access)) := by
  have hlength := congrArg List.length hleft
  rw [List.length_drop] at hlength
  have hmirrors : Work.Mirrors disk (selection.takeLines file steps h [] p) _ :=
    takeLines_mirrors steps h [] (by rw [hlength]; simpa using hsteps) hlog hplain hp hfile
  rwa [hleft, takeEach_eq, ← linesOf_accessOf,
    ← selection.takeLines_given file hchunks _ h [] p (by simpa using hsteps)] at hmirrors

end Selection

namespace OneVote

def log : LogFile :=
  ⟨.ofString "r/stdout_0.log", 0⟩

/-- Open, and not read so far. -/
def handle : Handle :=
  ⟨[name "r", name "stdout_0.log"], 0, 0⟩

/-- A run at its start, of which nothing was written so far. -/
def atStart : Progress where
  writer :=
    let sink : Sink := { path := .ofString "o/all_nodes.log", handle := ⟨[], 0, 0⟩ }
    { dir := .ofString "o", runName := "r".toList, combined := ⟨sink, sink⟩ }

/-- The chunks part a character of which the last byte is missing in front of the line feed. The
last byte begins no character. -/
def chunks : List Bytes :=
  [[0x56, 0xE2], [0x82, 0x0A, 0xFF]]

end OneVote

namespace Selection

open OneVote in
theorem takeLines_delivered_parted :
    (pipeline.selection.takeLines log 11 handle [] atStart).given chunks none =
      pipeline.selection.takeStrings log none ["V\ufffd\n".toList, "\ufffd".toList] atStart ∧
    ∃ front : Bytes, front.getLast? = some 0x0A ∧ front <+: chunks.flatten ∧
      (pipeline.selection.takeLines log 11 handle [] atStart).given chunks (some .inputOutput) = (do
        let p ← (pipeline.selection.takeLines log 11 handle [] atStart).given [front] none
        return if p.isOver then p else p.tell (.stoppedReading log.path .inputOutput)) := by
  have hchunks : ∀ chunk ∈ chunks, chunk ≠ [] := by decide
  have hsteps : 2 * chunks.flatten.length < 11 := by decide
  obtain ⟨⟨text, htext, hstrings, -⟩, hstopped⟩ :=
    pipeline.selection.takeLines_delivered log (show atStart.failure = none from rfl) hchunks rfl
      handle hsteps
  have hread : text = Utf8.decodeLossy chunks.flatten :=
    Utf8.replaces_iff.mp ((htext text).mpr rfl)
  constructor
  · rw [hstrings, hread]
    rfl
  · obtain ⟨front, rest, hfront, hended, hrest, hsame⟩ := hstopped .inputOutput
    have hne : front ≠ [] := by
      rintro rfl
      rw [List.nil_append] at hfront
      exact hrest (hfront ▸ (by decide : (0x0A : UInt8) ∈ chunks.flatten))
    refine ⟨front, hended.resolve_left hne, ⟨rest, hfront.symm⟩, ?_⟩
    exact hsame [front] handle (by simpa using hne) (by simp)

end Selection

end NodeLogs
