import Mathlib.Data.List.Forall2
import NodeLogs.Proofs.Pipeline.Leftovers
import NodeLogs.Proofs.Record.PlainLine

/-! The two forms side by side. Each pair of output files has the same records, one a line: the
line of JSON tells the record, and the plain line has its time and its message. That holds
as well where a run stops because files of a node cannot be opened, as nothing of the record
that they were opened for has been written then. -/

namespace NodeLogs

/-! ### Files line for line -/

/-- The lines of a file that ends with a line feed, without their line feeds. -/
def fileLines (bytes : Bytes) : List Bytes :=
  (splitAll 0x0A bytes).dropLast

/-- Both are lines of one record: it is read back from the line of JSON, and the plain line has
its time and its message, which come apart at the first blank. -/
def SameRecord (json plain : Bytes) : Prop :=
  ∃ (members : Json.Object) (r : Record) (o : Origin),
    Json.decodeUnbounded? (Utf8.decodeLossy json) = some (.object members) ∧
    Record.ofMembers? members = some (r, o) ∧
    plain = Utf8.encode (r.stamp ++ ' ' :: r.msg) ∧
    (Utf8.decodeLossy plain).span (· ≠ ' ') = (r.stamp, ' ' :: r.msg)

/-- Two files have lines of the same records, in the same order. -/
structure LineForLine (json plain : Bytes) : Prop where
  json_feed : json = [] ∨ json.getLast? = some 0x0A
  plain_feed : plain = [] ∨ plain.getLast? = some 0x0A
  count : (splitAll 0x0A json).length = (splitAll 0x0A plain).length
  lines : List.Forall₂ SameRecord (fileLines json) (fileLines plain)

namespace Entry

/-- The record was read from a line. -/
def IsParsed (e : Entry) : Prop :=
  ∃ relevance raw, Line.parse? relevance raw = some e.record

variable {e : Entry}

theorem isParsed_of_keep? {selection : Selection} {line : Bytes} {r : Record}
    (h : selection.keep? line = some r) (source : Path) (node : Nat) : IsParsed ⟨r, source, node⟩ :=
  ⟨_, _, (Option.filter_eq_some_iff.mp h).1⟩

theorem IsParsed.sameRecord (h : e.IsParsed) (runName : Text) :
    SameRecord (e.text runName .json) (e.text runName .plain) := by
  obtain ⟨relevance, raw, hparse⟩ := h
  refine ⟨_, e.record, ⟨e.source.display, runName, e.node⟩, ?_,
    Record.ofMembers?_membersFrom _ _, rfl, ?_⟩
  · rw [text, Utf8.decodeLossy_encode]
    exact (Line.kept_of_parse? hparse).decode_jsonFrom _
  · rw [text, Utf8.decodeLossy_encode]
    exact Record.span_plain hparse

theorem IsParsed.feed_not_mem (h : e.IsParsed) (runName : Text) (form : Form) :
    0x0A ∉ e.text runName form := by
  obtain ⟨relevance, raw, hparse⟩ := h
  have hencode {cs : Text} (hcs : '\n' ∉ cs) : (0x0A : UInt8) ∉ Utf8.encode cs := by
    intro hmem
    obtain ⟨c, hc, hfeed⟩ := (Utf8.mem_encode (n := 0x0A) (by decide)).mp hmem
    exact hcs (Char.toNat_inj.mp (show c.toNat = '\n'.toNat from hfeed) ▸ hc)
  cases form with
  | json => exact hencode (Record.feed_not_mem_jsonFrom hparse _)
  | plain => exact hencode (Record.feed_not_mem_plain hparse)

end Entry

namespace Outlet

variable {es : List Entry} (hparsed : ∀ e ∈ es, e.IsParsed) (runName : Text)
include hparsed

/-- Between the line feeds of an outlet's file are the texts of its entries. -/
theorem splitAll_rendering (x : Outlet) : splitAll 0x0A (x.rendering runName es) =
    ((es.filter x.takes).map fun e => e.text runName x.form) ++ [[]] :=
  splitAll_flatMap fun e he => (hparsed e (List.mem_filter.mp he).1).feed_not_mem runName x.form

theorem fileLines_rendering (x : Outlet) : fileLines (x.rendering runName es) =
    (es.filter x.takes).map fun e => e.text runName x.form := by
  rw [fileLines, splitAll_rendering hparsed, List.dropLast_concat]

/-- The files of a group with the lines of parsed records have them line for line. -/
theorem lineForLine_rendering (g : Group) :
    LineForLine (rendering runName es ⟨g, .json⟩) (rendering runName es ⟨g, .plain⟩) := by
  have hfeed (form : Form) : rendering runName es ⟨g, form⟩ = [] ∨
      (rendering runName es ⟨g, form⟩).getLast? = some 0x0A := by
    have hrendering : rendering runName es ⟨g, form⟩ =
        (es.filter (takes ⟨g, form⟩)).flatMap fun e => e.text runName form ++ [0x0A] := rfl
    rw [hrendering]
    rcases List.eq_nil_or_concat (es.filter (takes ⟨g, form⟩)) with hnil | ⟨first, last, hlast⟩
    · exact .inl (by simp [hnil])
    · exact .inr (by simp [hlast, ← List.append_assoc])
  -- Both forms take the same entries.
  have htakes : takes ⟨g, .plain⟩ = takes ⟨g, .json⟩ := rfl
  refine ⟨hfeed .json, hfeed .plain, ?_, ?_⟩
  · simp [splitAll_rendering hparsed, htakes]
  · rw [fileLines_rendering hparsed, fileLines_rendering hparsed, htakes,
      List.forall₂_map_left_iff, List.forall₂_map_right_iff, List.forall₂_same]
    exact fun e he => (hparsed e (List.mem_filter.mp he).1).sameRecord runName

end Outlet

/-! ### Writers in step -/

/-- Files that are open for writing are taken for other paths. -/
def TakenBy (files : List (Path × Handle)) (p : Path) (place : Place) : Prop :=
  ∃ f ∈ files, f.1 ≠ p ∧ f.2.place = place

/-- The sinks of a writer were given the lines of the same entries. They have all the files that
are open for writing, but for some for JSON. -/
structure InStep (dir : Path) (runName : Text) (disk : Disk) (w : Writer)
    (files : List (Path × Handle)) : Prop where
  cwd : disk.HasCwd
  dir_eq : w.dir = dir
  name_eq : w.runName = runName
  holds : ∃ es : List Entry, (∀ e ∈ es, e.IsParsed) ∧
    w.Holds disk fun x => x.rendering runName es
  files_of : ∃ own, (∀ f ∈ own, f ∈ files) ∧ w.sinks.WriteTo dir own ∧
    ∀ f ∈ files, f ∈ own ∨ ∃ g, f.1 = Outlet.path dir ⟨g, .json⟩

namespace InStep

variable {dir : Path} {runName : Text} {disk : Disk} {w : Writer} {files : List (Path × Handle)}

theorem usesElse (h : InStep dir runName disk w files) {path : Path} {place : Place}
    (huses : w.sinks.UsesElse path place) : TakenBy files path place := by
  obtain ⟨es, -, hholds⟩ := h.holds
  obtain ⟨own, hown, hwrite, -⟩ := h.files_of
  obtain ⟨x, sink, hx, hpath, rfl⟩ := huses
  obtain ⟨handle, hmem, heq⟩ := (hwrite _ _).mpr ⟨x, sink, hx, rfl, rfl⟩
  refine ⟨_, hown _ hmem, ?_, heq⟩
  rwa [← h.dir_eq, ← hholds.sinks.named x sink hx]

/-- Reading changes nothing but what devices do next. -/
theorem withFaults (h : InStep dir runName disk w files) (faults : Faults) :
    InStep dir runName { disk with faults } w files := by
  obtain ⟨es, hparsed, hholds⟩ := h.holds
  exact { h with
    holds := ⟨es, hparsed, ⟨{ hholds.sinks with
      holds := fun x sink hx => hholds.sinks.holds x sink hx }, hholds.once⟩⟩ }

/-- A new writer is in step. -/
theorem ofCreate (hcwd : disk.HasCwd) {taken : Path → Place → Prop}
    (hown : (Writer.create dir runName).OpensOwn disk taken)
    (hok : ((Writer.create dir runName).run disk).2 = .ok w) :
    InStep dir runName ((Writer.create dir runName).run disk).1 w
      ((Writer.create dir runName).created disk) := by
  obtain ⟨hdir, hname, -, hholds, hfiles⟩ := Writer.create_holds hcwd hown hok
  exact ⟨(Writer.create dir runName).run_hasCwd hcwd, hdir, hname, ⟨[], by simp, hholds⟩,
    ⟨_, fun _ => id, hfiles, fun _ => .inl⟩⟩

/-- An entry is written to its four outlets, or to none because a file of its node cannot be
opened. -/
theorem write (h : InStep dir runName disk w files) {e : Entry} (he : e.IsParsed)
    (hown : (w.write e.record e.source e.node).OpensOwn disk (TakenBy files))
    (hok : (w.write e.record e.source e.node).Accepted disk) :
    InStep dir runName ((w.write e.record e.source e.node).run disk).1
      ((w.write e.record e.source e.node).run disk).2.1
      (files ++ (w.write e.record e.source e.node).created disk) := by
  have hcwd := (w.write e.record e.source e.node).run_hasCwd h.cwd
  obtain ⟨es, hparsed, hholds⟩ := h.holds
  obtain ⟨own, hownFiles, hwrite, hothers⟩ := h.files_of
  have hown' := hown.mono fun _ _ => h.usesElse
  cases w.writing disk e with
  | unopened last failure hopen hrun =>
    have hjson := Writer.write_created_of_error (congrArg Prod.snd hopen)
    have hpair := Writer.openPair_holds h.cwd hholds e.node (Writer.write_eq w e ▸ hown').left
    rw [hopen] at hpair
    rw [hrun] at hcwd ⊢
    refine ⟨hcwd, h.dir_eq, h.name_eq, ⟨es, hparsed, hpair.1⟩, own,
      fun f hf => List.mem_append_left _ (hownFiles f hf), hwrite, fun f hf => ?_⟩
    rcases List.mem_append.mp hf with hf | hf
    · exact hothers f hf
    · exact .inr ⟨_, h.dir_eq ▸ hjson f hf⟩
  | served made pair hopen =>
    have hnone := Writer.write_ok_of_accepted hok (congrArg Prod.snd hopen)
    rcases Writer.write_holds h.cwd hholds e hown' with
      ⟨failure, hfailed, -⟩ | ⟨later, hserved, hlater, hdir, hname, -, hfiles⟩
    · rw [hfailed] at hnone
      cases hnone
    rw [hnone] at hserved
    refine ⟨hcwd, hdir.trans h.dir_eq, hname.trans h.name_eq, ⟨es ++ [e], ?_, ?_⟩,
      own ++ (w.write e.record e.source e.node).created disk, ?_, ?_, ?_⟩
    · exact List.forall_mem_append.mpr ⟨hparsed, by simpa using he⟩
    · convert hlater using 2 with x
      rw [hserved.eq_of_all e.outlets_nodup, h.name_eq]
      exact x.rendering_concat runName es e
    · exact fun f hf => List.mem_append.mpr
        ((List.mem_append.mp hf).imp_left (hownFiles f))
    · exact h.dir_eq ▸ hfiles own (h.dir_eq.symm ▸ hwrite)
    · intro f hf
      rcases List.mem_append.mp hf with hf | hf
      · exact (hothers f hf).imp_left (List.mem_append_left _)
      · exact .inl (List.mem_append_right _ hf)

/-- The files of the sinks hold lines of the same entries. -/
def Written (runName : Text) (w : Writer) (disk : Disk) : Prop :=
  ∃ es : List Entry, (∀ e ∈ es, e.IsParsed) ∧ ∀ x sink, w.sinks x = some sink →
    disk.bytesAt? sink.handle.place = some (x.rendering runName es)

theorem finish (h : InStep dir runName disk w files) (hok : w.finish.Accepted disk) :
    Written runName w (w.finish.run disk).1 := by
  obtain ⟨es, hparsed, hholds⟩ := h.holds
  refine ⟨es, hparsed, fun x sink hx => ?_⟩
  obtain ⟨part, rest, hbytes, hfile, hall⟩ := Writer.finish_bytesAt? h.cwd hholds hx
  obtain rfl := hall (Writer.finish_ok (w.finish_writesTo.granted hok))
  rw [hfile, hbytes, List.append_nil]

theorem release (h : InStep dir runName disk w files) (hok : w.release.Accepted disk) :
    Written runName w (w.release.run disk).1 := by
  obtain ⟨es, hparsed, hholds⟩ := h.holds
  refine ⟨es, hparsed, fun x sink hx => ?_⟩
  obtain ⟨part, rest, hbytes, hfile, hall⟩ := Writer.release_bytesAt? h.cwd hholds hx
  obtain rfl := hall (w.release_writesTo.granted hok)
  rw [hfile, hbytes, List.append_nil]

/-- Where the plain file of a group is open, the sinks of both forms have their files. -/
theorem exists_sink (h : InStep dir runName disk w files) {g : Group}
    (hg : g = .all ∨ ∃ handle, (Outlet.path dir ⟨g, .plain⟩, handle) ∈ files) (form : Form) :
    ∃ sink handle, w.sinks ⟨g, form⟩ = some sink ∧ (Outlet.path dir ⟨g, form⟩, handle) ∈ files ∧
      handle.place = sink.handle.place := by
  obtain ⟨own, hown, hwrite, hothers⟩ := h.files_of
  have hopen : (w.sinks ⟨g, .plain⟩).isSome := by
    rcases hg with rfl | ⟨handle, hmem⟩
    · rfl
    rcases hothers _ hmem with hmem | ⟨g', hpath⟩
    · obtain ⟨x, sink, hx, hpath, -⟩ := (hwrite _ _).mp ⟨handle, hmem, rfl⟩
      rw [← Outlet.path_injective hpath, hx]
      rfl
    · cases Outlet.path_injective hpath
  have hboth : (w.sinks ⟨g, form⟩).isSome := by
    cases g with
    | all => rfl
    | node n => simpa [Writer.sinks] using hopen
  obtain ⟨sink, hsink⟩ := Option.isSome_iff_exists.mp hboth
  obtain ⟨handle, hmem, hplace⟩ := (hwrite _ _).mpr ⟨_, sink, hsink, rfl, rfl⟩
  exact ⟨sink, handle, hsink, hown _ hmem, hplace⟩

end InStep

/-! ### Work in step -/

namespace Work

/-- On files of its own, and if no write is refused, work leaves a writer in step. -/
def StaysInStep (dir : Path) (runName : Text) (w : Work Progress) (disk : Disk)
    (files : List (Path × Handle)) : Prop :=
  w.OpensOwn disk (TakenBy files) → w.Accepted disk →
    InStep dir runName (w.run disk).1 (w.run disk).2.writer (files ++ w.created disk)

namespace StaysInStep

variable {dir : Path} {runName : Text} {disk : Disk} {files : List (Path × Handle)}

theorem pure {p : Progress} (h : InStep dir runName disk p.writer files) :
    (Pure.pure p : Work Progress).StaysInStep dir runName disk files := by
  intro _ _
  simpa using h

theorem bind {w : Work Progress} {f : Progress → Work Progress}
    (hw : w.StaysInStep dir runName disk files)
    (hf : ∀ disk p files, InStep dir runName disk p.writer files →
      (f p).StaysInStep dir runName disk files) :
    (w >>= f).StaysInStep dir runName disk files := by
  intro hown hok
  obtain ⟨hok, hok'⟩ := accepted_bind.mp hok
  rw [run_bind, created_bind, ← List.append_assoc]
  refine hf _ _ _ (hw hown.left hok) (hown.right.mono fun p place ⟨f, hf, hne, heq⟩ => ?_) hok'
  exact (List.mem_append.mp hf).imp (fun hf => ⟨f, hf, hne, heq⟩) fun hf => ⟨f, hf, hne, heq⟩

/-- Work may make a call first that opens nothing for writing. -/
theorem after {c : Call} {f : c.Answer → Work Progress} (hcreated : (Work.ask c).created disk = [])
    (hf : (f (disk.answer c).2).StaysInStep dir runName (disk.answer c).1 files) :
    (Work.ask c >>= f).StaysInStep dir runName disk files := by
  intro hown hok
  rw [run_bind, created_bind, hcreated, List.nil_append]
  exact hf (hown.right.mono fun p place htaken => .inl htaken) (accepted_bind.mp hok).2

end StaysInStep

end Work

variable {dir : Path} {runName : Text} {disk : Disk} {files : List (Path × Handle)} {p : Progress}

namespace Selection

variable (selection : Selection) (file : LogFile)

theorem takeLine_staysInStep (h : InStep dir runName disk p.writer files) (line : Bytes) :
    (selection.takeLine file line p).StaysInStep dir runName disk files := by
  cases hkeep : selection.keep? line with
  | none =>
    rw [takeLine_of_dropped file hkeep]
    exact .pure h
  | some r =>
    rw [takeLine_of_kept file hkeep]
    intro hown hok
    have hparsed := Entry.isParsed_of_keep? hkeep file.path file.node
    have hwrite := h.write hparsed hown.left (Work.accepted_bind.mp hok).1
    rw [Work.run_bind, Work.created_bind]
    simpa using hwrite

theorem takeLines_staysInStep (steps : Nat) (handle : Handle) (pending : Bytes)
    (h : InStep dir runName disk p.writer files) :
    (selection.takeLines file steps handle pending p).StaysInStep dir runName disk files := by
  induction steps generalizing disk handle pending p files with
  | zero => exact .pure h
  | succ steps ih =>
    have hline {disk : Disk} {p : Progress} {files : List (Path × Handle)}
        (h : InStep dir runName disk p.writer files) (line : Bytes) (handle : Handle)
        (rest : Bytes) : (selection.takeLineThen file line
          (selection.takeLines file steps handle rest) p).StaysInStep dir runName disk files := by
      refine .bind (takeLine_staysInStep selection file h line) fun disk p files h => ?_
      split
      · exact .pure h
      · exact ih handle rest h
    cases hcut : cutLine? pending with
    | some cut =>
      rw [takeLines_of_cut file hcut]
      exact hline h cut.1 handle cut.2
    | none =>
      rw [takeLines_of_uncut file hcut]
      obtain ⟨reads, hread⟩ := disk.read_disk handle chunkSize
      refine .after rfl ?_
      dsimp only [Disk.answer]
      rw [hread]
      obtain e | ⟨_ | ⟨b, bs⟩, handle'⟩ := (disk.read handle chunkSize).2
      · exact .pure (h.withFaults _)
      · simp only [takeRead]
        split
        · exact .pure (h.withFaults _)
        · exact hline (h.withFaults _) pending _ []
      · exact ih _ _ (h.withFaults _)

theorem takeLog_staysInStep (h : InStep dir runName disk p.writer files) :
    (selection.takeLog file p).StaysInStep dir runName disk files := by
  refine .after rfl ?_
  split
  · exact .pure h
  · exact takeLines_staysInStep selection file _ _ _ h

end Selection

/-- A walk that takes logs in leaves the writer in step, whether output fails or not. -/
theorem Walk.walk_staysInStep (selection : Selection) (reach : Nat) (start : Path)
    (h : InStep dir runName disk p.writer files) :
    (walk (takeLogs selection) reach start p).StaysInStep dir runName disk files := by
  have hcarries : Carries (takeLogs selection)
      (fun files disk p => InStep dir runName disk p.writer files)
      fun files disk w => w.StaysInStep dir runName disk files :=
    { pure := .pure
      bind := fun hw hf _ => hw.bind fun disk p files => hf files disk p
      look := fun {files disk c f} hlook hf => by
        refine .after (Work.created_look hlook disk) ?_
        rwa [disk.answer_look hlook]
      visit := fun h _ _ => Selection.takeLog_staysInStep selection _ h }
  exact hcarries.walk reach start h

/-! ### Runs -/

namespace Pipeline

variable {pl : Pipeline} {run : Run}

section Accepted

variable (hcwd : disk.HasCwd) {taken : Path → Place → Prop}
  (hown : (pl.filterRun run).OpensOwn disk taken) (hok : (pl.filterRun run).Accepted disk)
include hcwd hown hok

namespace Course

variable {made later : Disk} {w : Writer} (h : pl.Course run disk made later w p)
include h

/-- When a run has walked through its logs, the writer is in step with all its files. -/
theorem inStep : InStep (run.outputDir pl.outSubdir) run.name later p.writer
    ((pl.filterRun run).created disk) := by
  have hstart := InStep.ofCreate hcwd (create_opensOwn hown) (congrArg Prod.snd h.create)
  rw [h.create] at hstart
  have hstays : (pl.takeAll run w).StaysInStep (run.outputDir pl.outSubdir) run.name made _ :=
    Walk.walk_staysInStep pl.selection pl.reach run.path hstart
  have hwalked := hstays ((h.opensOwn hown).mono fun _ _ => .inr) (h.accepted hok).1
  rwa [h.walk, ← h.created_eq] at hwalked

/-- Whichever way the run ends, the writer is emptied into the files. -/
theorem written : InStep.Written run.name p.writer ((pl.filterRun run).run disk).1 := by
  have hwalked := h.inStep hcwd hown hok
  have hend := (h.accepted hok).2
  cases hfailure : p.failure with
  | some e =>
    rw [conclude_of_stopped hfailure] at hend
    rw [h.run_of_stopped hfailure]
    exact hwalked.release (Work.accepted_bind.mp hend).1
  | none =>
    rw [conclude_of_going hfailure] at hend
    rw [h.run_of_going hfailure]
    exact hwalked.finish (Work.accepted_bind.mp hend).1

end Course

/-- The files of a group that a run has opened hold lines of the same entries. -/
theorem filterRun_written {w : Writer}
    (hmade : ((Writer.create (run.outputDir pl.outSubdir) run.name).run disk).2 = .ok w) :
    ∃ es : List Entry, (∀ e ∈ es, e.IsParsed) ∧ ∀ g : Group, (g = .all ∨ ∃ handle,
      (Outlet.path (run.outputDir pl.outSubdir) ⟨g, .plain⟩, handle) ∈
        (pl.filterRun run).created disk) → ∀ form, ∃ handle,
      (Outlet.path (run.outputDir pl.outSubdir) ⟨g, form⟩, handle) ∈
        (pl.filterRun run).created disk ∧
      ((pl.filterRun run).run disk).1.bytesAt? handle.place =
        some (Outlet.rendering run.name es ⟨g, form⟩) := by
  obtain ⟨later, p, hcourse⟩ := exists_course (Prod.ext rfl hmade)
  obtain ⟨es, hparsed, hfiles⟩ := hcourse.written hcwd hown hok
  refine ⟨es, hparsed, fun g hg form => ?_⟩
  obtain ⟨sink, handle, hsink, hmem, hplace⟩ :=
    (hcourse.inStep hcwd hown hok).exists_sink hg form
  exact ⟨handle, hmem, hplace ▸ hfiles _ sink hsink⟩

end Accepted

/-- On a plain disk where no write is refused and only files are opened for writing, as there are
no devices in the way, the two forms correspond line for line, in the files of all nodes and in
those of each node for which both have been opened: also if the run has stopped because others
could not be opened. -/
theorem filterRun_lineForLine (hplain : disk.Plain)
    (hopens : ∀ e ∈ (pl.filterRun run).history disk, e.1.OpensFile e.2)
    (hok : (pl.filterRun run).Accepted disk) {w : Writer}
    (hmade : ((Writer.create (run.outputDir pl.outSubdir) run.name).run disk).2 = .ok w) :
    ∀ g : Group, (g = .all ∨ ∀ form, ∃ handle,
      (Outlet.path (run.outputDir pl.outSubdir) ⟨g, form⟩, handle) ∈
        (pl.filterRun run).created disk) →
      ∃ json plain, pl.output? run ((pl.filterRun run).run disk).1 ⟨g, .json⟩ = some json ∧
        pl.output? run ((pl.filterRun run).run disk).1 ⟨g, .plain⟩ = some plain ∧
        LineForLine json plain := by
  intro g hg
  obtain ⟨es, hparsed, hwritten⟩ :=
    filterRun_written hplain.cwd (filterRun_opensOwn hplain hopens) hok hmade
  have hfile (form : Form) : pl.output? run ((pl.filterRun run).run disk).1 ⟨g, form⟩ =
      some (Outlet.rendering run.name es ⟨g, form⟩) := by
    obtain ⟨handle, hmem, hbytes⟩ := hwritten g (hg.imp_right fun h => h .plain) form
    obtain ⟨x, hx, dir, hleads, hplace⟩ := filterRun_created hplain hmem
    obtain rfl := Outlet.path_injective hx
    rw [output?, hleads.bytesOf?_outlet (hplain.run _), ← hplace, hbytes]
  exact ⟨_, _, hfile .json, hfile .plain, Outlet.lineForLine_rendering hparsed run.name g⟩

end Pipeline

/-! ### A run that stops -/

namespace OneVote

/-- A second node has a vote as well, but a directory stands where its plain file would be. -/
def blocked : Disk where
  root := .dir [(name "r", .dir [
    (name "stdout_0.log", .file 0 (name "2024-01-01T00:00:00Z [t] INFO a:1 Vote\n") .normal),
    (name "stdout_1.log", .file 1 (name "2024-01-01T00:00:01Z [t] INFO a:1 Vote\n") .normal),
    (name "o", .dir [(name "node1.log", .dir [])])])]
  cwd := []

end OneVote

namespace Pipeline

open OneVote in
theorem filterRun_lineForLine_blocked :
    ((pipeline.filterRun OneVote.run).run blocked).2.1.failure.map SinkError.stage = some .openSink ∧
      (pipeline.output? OneVote.run ((pipeline.filterRun OneVote.run).run blocked).1
        ⟨.node 0, .json⟩).map (fun bytes => (fileLines bytes).length) = some 1 ∧
      ∀ g ∈ [Group.node 0, .all], ∃ json plain,
        pipeline.output? OneVote.run ((pipeline.filterRun OneVote.run).run blocked).1 ⟨g, .json⟩ =
          some json ∧
        pipeline.output? OneVote.run ((pipeline.filterRun OneVote.run).run blocked).1 ⟨g, .plain⟩ =
          some plain ∧ LineForLine json plain := by
  have hplain : blocked.Plain := by decide +kernel
  have hopens := (pipeline.filterRun OneVote.run).opensFiles hplain (by decide +kernel)
  have hok : (pipeline.filterRun OneVote.run).Accepted blocked := by decide +kernel
  have hcreated : ∀ form, Outlet.path (OneVote.run.outputDir pipeline.outSubdir) ⟨.node 0, form⟩ ∈
      ((pipeline.filterRun OneVote.run).created blocked).map Prod.fst := by
    rintro (_ | _) <;> decide +kernel
  have hdone : ((Writer.create (OneVote.run.outputDir pipeline.outSubdir) OneVote.run.name).run
      blocked).2.isOk := by decide +kernel
  cases hmade : ((Writer.create (OneVote.run.outputDir pipeline.outSubdir) OneVote.run.name).run
      blocked).2 with
  | error e =>
    rw [hmade] at hdone
    cases hdone
  | ok w =>
    refine ⟨by decide +kernel, by decide +kernel, fun g hg =>
      filterRun_lineForLine hplain hopens hok hmade g ?_⟩
    rcases List.mem_cons.mp hg with rfl | hg
    · refine .inr fun form => ?_
      obtain ⟨⟨path, handle⟩, hmem, heq⟩ := List.mem_map.mp (hcreated form)
      exact ⟨handle, heq ▸ hmem⟩
    · exact .inl (List.mem_singleton.mp hg)

end Pipeline

end NodeLogs
