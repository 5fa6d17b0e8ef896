import NodeLogs.Proofs.Json.Grammar
import NodeLogs.Proofs.Output.Ending

/-! How far an entry gets that a writer is given. A writer has no way to take a line
back: sinks are served one after another, a long line goes straight to its file, and
what waits in a buffer is written out when the writer is finished or let go of. So a
write that fails at a sink leaves the line with the sinks before it. Only where a
sink cannot be opened does nobody get anything. -/

namespace NodeLogs

namespace Writer

variable {disk : Disk} {w : Writer} {given : Outlet → Bytes}

/-- What an outlet was given so far: what its file holds, and what waits. -/
def bytesOf (disk : Disk) (w : Writer) (x : Outlet) : Bytes :=
  match w.sinks x with
  | some sink => (disk.bytesAt? sink.handle.place).getD [] ++ sink.buffer
  | none => []

theorem Holds.bytesOf_eq (h : w.Holds disk given) (x : Outlet) : w.bytesOf disk x = given x := by
  unfold bytesOf
  cases hx : w.sinks x with
  | none => exact (h.sinks.unused x hx).symm
  | some sink =>
    obtain ⟨part, hgiven, hfile⟩ := (h.sinks.holds x sink hx).bytesAt?
    rw [hgiven]
    simp [hfile]

/-- What may happen while a writer is open: it writes entries, opening nothing but
files of its own, and the disk changes where none of its files are. -/
inductive Reaches : Disk × Writer → Disk × Writer → Prop where
  | refl (s) : Reaches s s
  | write {s disk w} (h : Reaches s (disk, w)) (e : Entry)
    (hown : (w.write e.record e.source e.node).OpensOwn disk w.sinks.UsesElse) :
    Reaches s (((w.write e.record e.source e.node).run disk).1,
      ((w.write e.record e.source e.node).run disk).2.1)
  | elsewhere {s disk w later S} (h : Reaches s (disk, w)) (hu : Disk.Updates S disk later)
    (hS : ∀ place, w.sinks.Uses place → ¬ S place) : Reaches s (later, w)

/-- A writer as it may be some time after it was created. -/
def Reachable (disk : Disk) (w : Writer) : Prop :=
  ∃ first dir runName taken new, Disk.HasCwd first ∧
    (create dir runName).OpensOwn first taken ∧
    ((create dir runName).run first).2 = .ok new ∧
    Reaches (((create dir runName).run first).1, new) (disk, w)

/-- Whatever happens, each sink has its file, and nothing that it was given is lost. -/
theorem Reaches.holds {s t : Disk × Writer} (hst : Reaches s t) (hcwd : s.1.HasCwd)
    (h : s.2.Holds s.1 given) :
    t.1.HasCwd ∧ ∃ later, t.2.Holds t.1 later ∧ ∀ x, given x <+: later x := by
  induction hst with
  | refl => exact ⟨hcwd, given, h, fun x => List.prefix_refl _⟩
  | write _ e hown ih =>
    obtain ⟨hcwd', later, hlater, hgrows⟩ := ih
    refine ⟨Work.run_hasCwd _ hcwd', ?_⟩
    rcases write_holds hcwd' hlater e hown with ⟨failure, hsame, -, hholds, -⟩ |
      ⟨last, hserved, hholds, -⟩
    · refine ⟨later, ?_, hgrows⟩
      rw [hsame]
      exact hholds
    · exact ⟨last, hholds, fun x => (hgrows x).trans (hserved.isPrefix x)⟩
  | elsewhere _ hu hS ih =>
    obtain ⟨hcwd', later, hlater, hgrows⟩ := ih
    exact ⟨hu.hasCwd hcwd', later, ⟨hlater.sinks.frame hu hS, hlater.once⟩, hgrows⟩

theorem Reachable.holds (hw : Reachable disk w) :
    disk.HasCwd ∧ ∃ given, w.Holds disk given := by
  obtain ⟨first, dir, runName, taken, new, hcwd, hown, hok, hreaches⟩ := hw
  obtain ⟨-, -, -, hholds, -⟩ := create_holds hcwd hown hok
  obtain ⟨hcwd', later, hlater, -⟩ := hreaches.holds ((create dir runName).run_hasCwd hcwd) hholds
  exact ⟨hcwd', later, hlater⟩

/-- What an outlet was given is in its file at last, unless a failure is reported. -/
theorem Reaches.finish_bytesAt? {s t : Disk × Writer} (hst : Reaches s t) (hcwd : s.1.HasCwd)
    (h : s.2.Holds s.1 given) {x : Outlet} {front line : Bytes} (hline : line ≠ [])
    (hx : given x = front ++ line) (hnone : (t.2.finish.run t.1).2 = none) :
    ∃ sink back, t.2.sinks x = some sink ∧
      (t.2.finish.run t.1).1.bytesAt? sink.handle.place = some (front ++ line ++ back) := by
  obtain ⟨hcwd', later, hlater, hgrows⟩ := hst.holds hcwd h
  obtain ⟨back, hback⟩ := hx ▸ hgrows x
  cases hsink : t.2.sinks x with
  | none =>
    rw [hlater.sinks.unused x hsink] at hback
    simp [hline] at hback
  | some sink =>
    obtain ⟨part, rest, hparts, hfile, hall⟩ := Writer.finish_bytesAt? hcwd' hlater hsink
    rw [hall hnone, List.append_nil] at hparts
    exact ⟨sink, back, rfl, by rw [hfile, ← hparts, hback]⟩

/-- How far the entry of a write gets. -/
structure FansOut (disk : Disk) (w : Writer) (e : Entry) (result : Disk × Writer × Option SinkError) :
    Prop where
  /-- A write that succeeds gives the whole line to its four outlets. -/
  given : result.2.2 = none → ∀ x ∈ e.outlets,
    result.2.1.bytesOf result.1 x = w.bytesOf disk x ++ e.line w.runName x.form
  /-- Then their files have it at last, whatever comes after, unless a failure is reported. -/
  kept : result.2.2 = none → ∀ last, Reaches (result.1, result.2.1) last →
    (last.2.finish.run last.1).2 = none → ∀ x ∈ e.outlets, ∃ sink front back,
      last.2.sinks x = some sink ∧
      (last.2.finish.run last.1).1.bytesAt? sink.handle.place =
        some (front ++ e.line w.runName x.form ++ back)
  /-- A write that fails gives nothing to any outlet if a sink cannot be opened. If a
  sink refuses, the outlets before it have got the whole line, it has got a proper
  initial part of it, and those behind it nothing. -/
  cut : ∀ failure, result.2.2 = some failure →
    (w.pair? e.node = none ∧ result.2.1 = w ∧
      (∀ x, result.2.1.bytesOf result.1 x = w.bytesOf disk x) ∧
      ∀ opened ∈ (w.write e.record e.source e.node).created disk,
        result.1.bytesAt? opened.2.place = some []) ∨
    ∃ served x unserved part rest, e.outlets = served ++ x :: unserved ∧
      e.line w.runName x.form = part ++ rest ∧ rest ≠ [] ∧
      result.2.1.bytesOf result.1 x = w.bytesOf disk x ++ part ∧
      (∀ y ∈ served,
        result.2.1.bytesOf result.1 y = w.bytesOf disk y ++ e.line w.runName y.form) ∧
      ∀ y, y ∉ served → y ≠ x → result.2.1.bytesOf result.1 y = w.bytesOf disk y
  /-- When the writer is finished, a file has what its outlet was given: an initial
  part of it, and all of it if no failure is reported. -/
  finished : ∀ x sink, result.2.1.sinks x = some sink →
    ∃ part rest, result.2.1.bytesOf result.1 x = part ++ rest ∧
      (result.2.1.finish.run result.1).1.bytesAt? sink.handle.place = some part ∧
      ((result.2.1.finish.run result.1).2 = none → rest = [])
  /-- When it is let go of, a file has an initial part of that. -/
  released : ∀ x sink, result.2.1.sinks x = some sink →
    ∃ part rest, result.2.1.bytesOf result.1 x = part ++ rest ∧
      (result.2.1.release.run result.1).1.bytesAt? sink.handle.place = some part

theorem FansOut.of_unopened (hgiven : w.Holds disk given) (e : Entry)
    {later : Disk} {failure : SinkError} (hcwd' : later.HasCwd) (hlater : w.Holds later given)
    (hpair : w.pair? e.node = none)
    (hempty : ∀ opened ∈ (w.write e.record e.source e.node).created disk,
      later.bytesAt? opened.2.place = some []) :
    FansOut disk w e (later, w, some failure) where
  given := by simp
  kept := by simp
  cut _ _ := .inl ⟨hpair, rfl, fun x => by rw [hlater.bytesOf_eq, hgiven.bytesOf_eq], hempty⟩
  finished x sink hx := by
    rw [hlater.bytesOf_eq]
    exact Writer.finish_bytesAt? hcwd' hlater hx
  released x sink hx := by
    obtain ⟨part, rest, hgiven, hfile, -⟩ := Writer.release_bytesAt? hcwd' hlater hx
    exact ⟨part, rest, (hlater.bytesOf_eq x).trans hgiven, hfile⟩

theorem FansOut.of_served (hgiven : w.Holds disk given) (e : Entry) {later : Outlet → Bytes}
    {result : Disk × Writer × Option SinkError} (hcwd' : result.1.HasCwd)
    (hlater : result.2.1.Holds result.1 later)
    (hserved : Served (e.line w.runName) e.outlets given later result.2.2.isNone) :
    FansOut disk w e result := by
  have hbefore : w.bytesOf disk = given := funext hgiven.bytesOf_eq
  have hafter : result.2.1.bytesOf result.1 = later := funext hlater.bytesOf_eq
  have hall (hnone : result.2.2 = none) :
      ∀ x ∈ e.outlets, later x = given x ++ e.line w.runName x.form := by
    intro x hx
    rw [hnone] at hserved
    rw [hserved.eq_of_all e.outlets_nodup x, if_pos hx]
  refine ⟨?_, ?_, ?_, ?_, ?_⟩
  · rw [hbefore, hafter]
    exact hall
  · intro hnone last hlast hfinish x hx
    have hline : e.line w.runName x.form ≠ [] := by simp [Entry.line]
    obtain ⟨sink, back, hsink, hfile⟩ :=
      hlast.finish_bytesAt? hcwd' hlater hline (hall hnone x hx) hfinish
    exact ⟨sink, _, back, hsink, hfile⟩
  · intro failure hfailed
    rw [hfailed] at hserved
    rw [hbefore, hafter]
    exact .inr (hserved.cut e.outlets_nodup)
  · rw [hafter]
    exact fun x sink hx => Writer.finish_bytesAt? hcwd' hlater hx
  · intro x sink hx
    obtain ⟨part, rest, hgiven, hfile, -⟩ := Writer.release_bytesAt? hcwd' hlater hx
    exact ⟨part, rest, (hlater.bytesOf_eq x).trans hgiven, hfile⟩

/-- A write fans its entry out in turns: it may stop at a sink, but it never gets
there by another way. -/
theorem write_fansOut (hw : Reachable disk w) (e : Entry)
    (hown : (w.write e.record e.source e.node).OpensOwn disk w.sinks.UsesElse) :
    FansOut disk w e ((w.write e.record e.source e.node).run disk) := by
  obtain ⟨hcwd, given, hgiven⟩ := hw.holds
  have hcwd' := (w.write e.record e.source e.node).run_hasCwd hcwd
  rcases write_holds hcwd hgiven e hown with ⟨failure, hresult, hpair, hholds, hempty⟩ |
    ⟨later, hserved, hholds, -⟩
  · generalize (w.write e.record e.source e.node).run disk = result at *
    obtain ⟨disk', written⟩ := result
    subst hresult
    exact .of_unopened hgiven e hcwd' hholds hpair hempty
  · exact .of_served hgiven e hcwd' hholds hserved

end Writer

/-! ### A directory with a full device -/

namespace FullDevice

def name (s : String) : Name :=
  Utf8.encode s.toList

/-- A directory for outputs in which the plain file of node 0 is a link to a full device. -/
def tree (others : List (Name × Node)) : Disk where
  root := .dir [(name "dev", .dir [(name "full", .device .full)]),
    (name "o", .dir ((name "node0.log", .link (.ofString "/dev/full")) :: others))]
  cwd := []

/-- The files of all nodes, which are empty, and the JSON file of node 0. -/
def files (bytes : Bytes) : List (Name × Node) :=
  [(name "all_nodes.jsonl", .file 0 [] .normal), (name "all_nodes.log", .file 0 [] .normal),
    (name "node0.jsonl", .file 0 bytes .normal)]

def sink (file : String) (place : Place) : Sink where
  path := .ofString ("o/" ++ file)
  handle := ⟨place, 0, 0⟩

def writer : Writer where
  dir := .ofString "o"
  runName := []
  combined := ⟨sink "all_nodes.jsonl" [name "o", name "all_nodes.jsonl"],
    sink "all_nodes.log" [name "o", name "all_nodes.log"]⟩

/-- The JSON file of node 0, and the device behind its plain file. -/
def pair : SinkPair :=
  ⟨sink "node0.jsonl" [name "o", name "node0.jsonl"], sink "node0.log" [name "dev", name "full"]⟩

def entry (node : Nat) (msg : Text) : Entry where
  record :=
    { stamp := [], thread := [], level := [], target := [], line := 0, msg, payload := none,
      event := none, fields := {} }
  source := .ofString "stdout.log"
  node

/-- The writer may use no other places than those of its sinks. -/
theorem uses_writer {p : Path} {place : Place} (h : writer.sinks.UsesElse p place) :
    place ∈ [writer.combined.json.handle.place, writer.combined.plain.handle.place] := by
  obtain ⟨x, sink, hx, -, rfl⟩ := h
  rcases Writer.mem_sinks hx with hnode | hall
  · cases hnode
  · exact List.mem_map_of_mem (f := (·.handle.place)) hall

/-- An entry of node 1 is fanned out by the writer that was created on a disk, and fails at a stage
or at none. -/
def FansOutNode1 (disk : Disk) (msg : Text) (stage : Option SinkStage) : Prop :=
  let e := entry 1 msg
  let opened := ((Writer.create (.ofString "o") []).run disk).1
  let result := (writer.write e.record e.source e.node).run opened
  Writer.Reachable opened writer ∧
    (writer.write e.record e.source e.node).OpensOwn opened writer.sinks.UsesElse ∧
    result.2.2.map SinkError.stage = stage ∧ Writer.FansOut opened writer e result

/-- The JSON file of node 1 refuses what it is given first, after three bytes. -/
def refusing : Disk :=
  { tree [] with faults := { writes := [([name "o", name "node1.jsonl"], some 3)] } }

/-- All is well, or a directory stands in the way of the plain file, or a long line is refused. -/
theorem write_fansOut_node1 :
    FansOutNode1 (tree []) "Vote".toList none ∧
      FansOutNode1 (tree [(name "node1.log", .dir [])]) "Vote".toList (some .openSink) ∧
      FansOutNode1 refusing (List.replicate Sink.capacity 'a') (some .write) := by
  have hfans {disk : Disk} {msg : Text} {stage : Option SinkStage} (hcwd : disk.HasCwd)
      (hcreate : (Writer.create (.ofString "o") []).OpensOwn disk fun _ _ => False)
      (hwriter : ((Writer.create (.ofString "o") []).run disk).2 = .ok writer)
      (hwrite :
        let e := entry 1 msg
        let opened := ((Writer.create (.ofString "o") []).run disk).1
        let write := writer.write e.record e.source e.node
        (write.OpensOwn opened fun _ place =>
          place ∈ [writer.combined.json.handle.place, writer.combined.plain.handle.place]) ∧
        (write.run opened).2.2.map SinkError.stage = stage) : FansOutNode1 disk msg stage := by
    obtain ⟨hopens, hstage⟩ := hwrite
    have hreachable : Writer.Reachable ((Writer.create (.ofString "o") []).run disk).1 writer :=
      ⟨disk, .ofString "o", [], fun _ _ => False, writer, hcwd, hcreate, hwriter, .refl _⟩
    have hown : (writer.write (entry 1 msg).record (entry 1 msg).source 1).OpensOwn _
        writer.sinks.UsesElse := hopens.mono fun _ _ => uses_writer
    exact ⟨hreachable, hown, hstage, Writer.write_fansOut hreachable (entry 1 msg) hown⟩
  refine ⟨hfans ?_ ?_ rfl ?_, hfans ?_ ?_ rfl ?_, hfans ?_ ?_ rfl ?_⟩ <;> decide +kernel

end FullDevice

/-! ### A long line -/

theorem Utf8.length_le_encode (cs : Text) : cs.length ≤ (Utf8.encode cs).length := by
  induction cs with
  | nil => simp
  | cons c cs ih =>
    have hc : 0 < (Utf8.encodeChar c).length := by
      unfold Utf8.encodeChar
      dsimp only
      repeat' split
      all_goals simp
    simp only [Utf8.encode_cons, List.length_append, List.length_cons]
    omega

/-- The lines of an entry are at least as long as its message. -/
theorem Entry.length_le_text (runName : Text) (e : Entry) (form : Form) :
    e.record.msg.length ≤ (e.text runName form).length := by
  cases form with
  | json =>
    refine Nat.le_trans (Json.length_le_quote _) (Nat.le_trans ?_ (Utf8.length_le_encode _))
    have hmem : ("msg".toList, .string e.record.msg) ∈
        e.record.membersFrom ⟨e.source.display, runName, e.node⟩ := by
      simp [Record.membersFrom, Record.members]
    exact Json.length_le_render hmem
  | plain =>
    refine Nat.le_trans ?_ (Utf8.length_le_encode _)
    simp [Record.plain]
    omega

namespace Sink

/-- A piece too long for any buffer goes straight to the file if nothing waits. -/
theorem put_long {sink : Sink} (hempty : sink.buffer = []) {piece : Bytes}
    (hlong : capacity ≤ piece.length) :
    sink.put piece = do
      let written ← Work.ask (.write sink.handle piece)
      return ({ sink with handle := written.handle }, written.refusal) := by
  unfold put take flush
  simp [hempty, hlong]

end Sink

namespace FullDevice

theorem write_json (bytes piece : Bytes) :
    (tree (files bytes)).write { pair.json.handle with offset := bytes.length } piece =
      (tree (files (bytes ++ piece)),
        ⟨{ pair.json.handle with offset := (bytes ++ piece).length }, piece.length, none⟩) := by
  have hfile : (tree (files bytes)).root.at? pair.json.handle.place =
      some (.file 0 bytes .normal) := rfl
  have hnone : takeFor? pair.json.handle.place (tree (files bytes)).faults.writes = none := rfl
  have hborn : pair.json.handle.born = 0 := rfl
  unfold Disk.write
  simp only [hfile, hnone, hborn, if_true, List.take_length, splice_length, List.length_append,
    Nat.lt_irrefl, if_false]
  rfl

theorem write_plain (bytes piece : Bytes) :
    (tree (files bytes)).write pair.plain.handle piece =
      (tree (files bytes), ⟨pair.plain.handle, 0, some .noSpace⟩) := rfl

/-- The sinks of node 0 when the JSON file has a line and its line feed waits. -/
def pairAfter (line : Bytes) : SinkPair :=
  { pair with json := { pair.json with
      handle := { pair.json.handle with offset := line.length }, buffer := [0x0A] } }

theorem putLine_json {line : Bytes} (hlong : Sink.capacity ≤ line.length) :
    (pair.json.putLine line).run (tree (files [])) =
      (tree (files line), (pairAfter line).json, none) := by
  have hwrite : (tree (files [])).write pair.json.handle line = _ := write_json [] line
  unfold Sink.putLine
  rw [Work.run_bind, Sink.put_long rfl hlong, Work.run_bind, Work.run_write, hwrite]
  rfl

theorem putLine_plain (bytes : Bytes) {line : Bytes} (hlong : Sink.capacity ≤ line.length) :
    (pair.plain.putLine line).run (tree (files bytes)) =
      (tree (files bytes), pair.plain, some ⟨.write, pair.plain.path, .noSpace⟩) := by
  unfold Sink.putLine
  rw [Work.run_bind, Sink.put_long rfl hlong, Work.run_bind, Work.run_write, write_plain]
  rfl

theorem serve_eq {text : Form → Bytes} (hlong : ∀ form, Sink.capacity ≤ (text form).length) :
    (writer.serve 0 pair text).run (tree (files [])) =
      (tree (files (text .json)), writer.setPair 0 (pairAfter (text .json)),
        some ⟨.write, pair.plain.path, .noSpace⟩) := by
  have hlines : (pair.putLines (text .json) (text .plain)).run (tree (files [])) =
      (tree (files (text .json)), pairAfter (text .json),
        some ⟨.write, pair.plain.path, .noSpace⟩) := by
    unfold SinkPair.putLines
    rw [Work.run_bind, putLine_json (hlong .json)]
    simp only [Work.run_bind, putLine_plain _ (hlong .plain)]
    rfl
  unfold Writer.serve
  rw [Work.run_bind, hlines]
  rfl

theorem finish_eq (line : Bytes) :
    ((writer.setPair 0 (pairAfter line)).finish.run (tree (files line))).1 =
      tree (files (line ++ [0x0A])) := by
  have hwrite : (tree (files line)).write (pairAfter line).json.handle [0x0A] = _ :=
    write_json line [0x0A]
  have hflush : (pairAfter line).json.flush.run (tree (files line)) =
      (tree (files (line ++ [0x0A])), { pair.json with
        handle := { pair.json.handle with offset := (line ++ [0x0A]).length } }, none) := by
    unfold Sink.flush
    rw [if_neg (by simp [pairAfter]), Work.run_bind, Work.run_write]
    rw [show (pairAfter line).json.buffer = [0x0A] from rfl, hwrite]
    rfl
  have hclose : (pairAfter line).json.close.run (tree (files line)) =
      (tree (files (line ++ [0x0A])), none) := by
    unfold Sink.close
    rw [Work.run_bind, hflush]
    rfl
  rw [Writer.finish_eq]
  show ((Sink.closeEach ((pairAfter line).json :: _)).run _).1 = _
  unfold Sink.closeEach
  rw [Work.run_bind, hclose]
  rfl

/-- Not all or none: the long line is refused by the plain file of its node and not
tried at the files of all nodes, but it stays in the JSON file of its node. -/
theorem write_not_all_or_none :
    let e := entry 0 (List.replicate Sink.capacity 'a')
    let opened := (Writer.create (.ofString "o") []).run (tree [])
    ∃ w, opened.2 = .ok w ∧
      let wrote := (w.write e.record e.source e.node).run opened.1
      wrote.2.2 ≠ none ∧
      (wrote.2.1.finish.run wrote.1).1.bytesAt? [name "o", name "node0.jsonl"] =
        some (e.line [] .json) := by
  intro e opened
  have hlong (form : Form) : Sink.capacity ≤ (e.text [] form).length := by
    refine Nat.le_trans ?_ (e.length_le_text [] form)
    simp [e, entry]
  have hopen : (writer.openPair 0).run opened.1 = (tree (files []), .ok pair) := rfl
  have hwrite : (writer.write e.record e.source e.node).run opened.1 =
      (writer.serve 0 pair (e.text [])).run (tree (files [])) := by
    rw [Writer.write_eq, Work.run_bind, show (writer.openPair e.node).run opened.1 = _ from hopen]
    rfl
  refine ⟨writer, rfl, ?_⟩
  rw [hwrite, serve_eq hlong]
  refine ⟨by simp, ?_⟩
  rw [finish_eq]
  rfl

/-- Here the JSON file of node 0 is a link to the plain file of all nodes. -/
def shared : Disk where
  root := .dir [(name "o", .dir [(name "node0.jsonl", .link (.ofString "all_nodes.log"))])]
  cwd := []

/-- It takes files of their own for a line to be kept: of two sinks on one file, one
writes over the line of the other, and no failure is reported. -/
theorem write_over_line :
    let e := entry 0 "Vote".toList
    let opened := (Writer.create (.ofString "o") []).run shared
    let wrote := (writer.write e.record e.source e.node).run opened.1
    let finished := wrote.2.1.finish.run wrote.1
    let bytes := (finished.1.bytesAt? [name "o", name "all_nodes.log"]).getD []
    opened.2 = .ok writer ∧ wrote.2.2 = none ∧ finished.2 = none ∧
      (wrote.2.1.sinks ⟨.node 0, .json⟩).map (·.handle.place) =
        some [name "o", name "all_nodes.log"] ∧
      bytes.length = (e.line [] .json).length ∧ bytes ≠ e.line [] .json := by
  refine ⟨rfl, ?_⟩
  decide +kernel

end FullDevice

end NodeLogs
