import Mathlib.Data.List.Dedup
import Mathlib.Logic.Relation
import NodeLogs.Proofs.Output.FanOut
import NodeLogs.Proofs.Output.Locations
import NodeLogs.Proofs.Pipeline.Lines
import NodeLogs.Proofs.Tree.Lasting

/-! Writers in use, from their creation on, with any calls to write. Where the sinks of a node
cannot be opened the call fails, and a later one may do better. The entries that count are those
of the calls that succeeded: at the end, every file that was ever opened holds their lines, and
none of what was written to it has been lost in between. -/

namespace NodeLogs

namespace Writer

variable {disk : Disk} {w : Writer} {given : Outlet → Bytes}

/-! ### Files of open sinks -/

/-- The files that the open sinks write to. -/
def openFiles (w : Writer) : List (Path × Handle) :=
  (nodeSinks w.nodes ++ [w.combined.json, w.combined.plain]).map fun sink =>
    (sink.path, sink.handle)

theorem Holds.writeTo_openFiles (h : w.Holds disk given) :
    w.sinks.WriteTo w.dir w.openFiles := by
  intro p place
  constructor
  · rintro ⟨handle, hmem, rfl⟩
    obtain ⟨sink, hsink, heq⟩ := List.mem_map.mp hmem
    obtain ⟨x, hx⟩ := exists_outlet h.once hsink
    cases heq
    exact ⟨x, sink, hx, (h.sinks.named x sink hx).symm, rfl⟩
  · rintro ⟨x, sink, hx, rfl, rfl⟩
    exact ⟨sink.handle, List.mem_map.mpr
      ⟨sink, List.mem_append.mpr (mem_sinks hx), by rw [h.sinks.named x sink hx]⟩, rfl⟩

/-- Only a node without sinks has some opened, under the names of its outlets. -/
theorem openPair_created_path {n : Nat} : ∀ f ∈ (w.openPair n).created disk,
    w.pair? n = none ∧ ∃ form, f.1 = Outlet.path w.dir ⟨.node n, form⟩ := by
  unfold openPair
  cases hpair : w.pair? n with
  | some pair => simp
  | none =>
    intro f hf
    obtain ⟨form, hform⟩ := SinkPair.create_created_path f hf
    exact ⟨rfl, form, hform.trans (Outlet.path_node w.dir n form)⟩

/-- A call makes no file shorter but those that it opens. -/
theorem write_length_le (hcwd : disk.HasCwd) (e : Entry) {place : Place} {bytes : Bytes}
    (hbytes : disk.bytesAt? place = some bytes)
    (hnew : ∀ g ∈ (w.write e.record e.source e.node).created disk, g.2.place ≠ place) :
    ∃ later, ((w.write e.record e.source e.node).run disk).1.bytesAt? place = some later ∧
      bytes.length ≤ later.length := by
  have hcwd' := (w.openPair e.node).run_hasCwd hcwd
  have hopen : ((w.openPair e.node).run disk).1.bytesAt? place = some bytes := by
    rw [((w.openPair e.node).run_updates hcwd).bytesAt? fun hplace => ?_, hbytes]
    obtain ⟨g, hg, hplace⟩ := openPair_touched _ hplace
    exact hnew g ((w.write_created e disk).symm ▸ hg) hplace
  cases w.writing disk e with
  | unopened last failure hunopened hrun =>
    rw [hunopened] at hopen
    rw [hrun]
    exact ⟨bytes, hopen, Nat.le_refl _⟩
  | served made pair hopened hrun =>
    rw [hopened] at hcwd' hopen
    rw [hrun]
    exact (w.serve_writesTo e.node pair _).length_le hcwd' hopen

/-! ### Calls to which no device refuses anything -/

/-- An entry for which a sink cannot be opened is given to nobody; any other goes to its
outlets in full. -/
theorem write_of_accepted (hcwd : disk.HasCwd) (h : w.Holds disk given) (e : Entry)
    (hown : (w.write e.record e.source e.node).OpensOwn disk w.sinks.UsesElse)
    (hok : (w.write e.record e.source e.node).Accepted disk) :
    let result := (w.write e.record e.source e.node).run disk
    (∃ failure, result.2 = (w, some failure) ∧ w.Holds result.1 given ∧
      ∀ f ∈ (w.write e.record e.source e.node).created disk,
        result.1.bytesAt? f.2.place = some []) ∨
    result.2.2 = none ∧ result.2.1.dir = w.dir ∧ result.2.1.runName = w.runName ∧
      result.2.1.Holds result.1
        (fun x => given x ++ if x ∈ e.outlets then e.line w.runName x.form else []) ∧
      (∀ x, (result.2.1.sinks x).isSome ↔ (w.sinks x).isSome ∨ x.group = .node e.node) ∧
      result.2.1.sinks.WriteTo w.dir
        (w.openFiles ++ (w.write e.record e.source e.node).created disk) := by
  rcases write_holds hcwd h e hown with ⟨failure, hresult, -, hholds, hempty⟩ |
    ⟨later, hserved, hholds, hdir, hname, hopen, hfiles⟩
  · exact .inl ⟨failure, hresult, hholds, hempty⟩
  · have hnone : ((w.write e.record e.source e.node).run disk).2.2 = none := by
      cases w.writing disk e with
      | served made pair hopened => exact write_ok_of_accepted hok (congrArg Prod.snd hopened)
      | unopened last failure hunopened hrun =>
        -- then the node would be without sinks as before
        have hsome := (hopen ⟨.node e.node, .json⟩).mpr (.inr rfl)
        rw [hrun] at hsome
        simp [sinks, openPair_error (congrArg Prod.snd hunopened)] at hsome
    rw [hnone] at hserved
    rw [show later = _ from funext (hserved.eq_of_all e.outlets_nodup)] at hholds
    exact .inr ⟨hnone, hdir, hname, hholds, hopen, hfiles _ h.writeTo_openFiles⟩

end Writer

theorem Outlet.rendering_append (runName : Text) (es more : List Entry) (x : Outlet) :
    x.rendering runName (es ++ more) = x.rendering runName es ++ x.rendering runName more := by
  simp [rendering]

/-! ### Sessions -/

/-- A writer in use: the disk, the files that it has opened so far, each under the path that it
was opened by, and the calls to write so far, each with its entry and its failure. -/
structure Session where
  disk : Disk
  writer : Writer
  files : List (Path × Handle)
  calls : List (Entry × Option SinkError) := []

namespace Session

/-- The entries of the calls that succeeded. -/
def kept (s : Session) : List Entry :=
  s.calls.filterMap fun (e, failure) => if failure.isNone then some e else none

/-- Different paths led to different files. -/
def OwnFiles (s : Session) : Prop :=
  ∀ f ∈ s.files, ∀ g ∈ s.files, f.2.place = g.2.place → f.1 = g.1

/-- A writer is created, and what it opens are regular files. -/
inductive Starts (dir : Path) (runName : Text) : Session → Prop where
  | create {disk : Disk} {w : Writer} (hcwd : disk.HasCwd)
    (hfiles : ∀ c ∈ (Writer.create dir runName).history disk, c.1.OpensFile c.2)
    (hok : ((Writer.create dir runName).run disk).2 = .ok w) :
    Starts dir runName ⟨((Writer.create dir runName).run disk).1, w,
      (Writer.create dir runName).created disk, []⟩

/-- A call to write. -/
def write (s : Session) (e : Entry) : Session where
  disk := ((s.writer.write e.record e.source e.node).run s.disk).1
  writer := ((s.writer.write e.record e.source e.node).run s.disk).2.1
  files := s.files ++ (s.writer.write e.record e.source e.node).created s.disk
  calls := s.calls ++ [(e, ((s.writer.write e.record e.source e.node).run s.disk).2.2)]

/-- What a call to write opens are regular files, and no device refuses a write. -/
structure Takes (s : Session) (e : Entry) : Prop where
  files : ∀ c ∈ (s.writer.write e.record e.source e.node).history s.disk, c.1.OpensFile c.2
  accepted : (s.writer.write e.record e.source e.node).Accepted s.disk

/-- What happens to a writer: calls to write, and changes of the tree by others, who leave its
files and the ways to them as they are. -/
inductive Step : Session → Session → Prop where
  | write {s : Session} {e : Entry} (h : s.Takes e) : Step s (s.write e)
  | meanwhile {s : Session} {later : Disk} (hcwd : later.HasCwd)
    (hsame : ∀ f ∈ s.files, later.locate true f.1 = .ok (.found f.2.place) ∧
      later.root.at? f.2.place = s.disk.root.at? f.2.place) :
    Step s { s with disk := later }

/-- The writer is finished or let go of, and no device refuses a write. -/
inductive Ends (s : Session) : Disk → Prop where
  | finish (hok : s.writer.finish.Accepted s.disk) : Ends s (s.writer.finish.run s.disk).1
  | release (hok : s.writer.release.Accepted s.disk) : Ends s (s.writer.release.run s.disk).1

/-- The sinks that are open are those of the entries that were kept, and were given their lines.
Every file that was opened is where its path leads, and empty unless its sink is open. -/
structure Intact (dir : Path) (runName : Text) (s : Session) : Prop where
  cwd : s.disk.HasCwd
  dir_eq : s.writer.dir = dir
  name_eq : s.writer.runName = runName
  holds : s.writer.Holds s.disk fun x => x.rendering runName s.kept
  open_iff : ∀ x, (s.writer.sinks x).isSome ↔ x.Occurs s.kept
  listed : ∀ x sink, s.writer.sinks x = some sink →
    ∃ f ∈ s.files, f.1 = x.path dir ∧ f.2.place = sink.handle.place
  leads : ∀ f ∈ s.files, s.disk.locate true f.1 = .ok (.found f.2.place)
  files : ∀ f ∈ s.files, ∃ x : Outlet, f.1 = x.path dir ∧
    (s.writer.sinks x = none → s.disk.bytesAt? f.2.place = some [])

variable {dir : Path} {runName : Text} {s t u : Session}

theorem OwnFiles.of_isPrefix (h : t.OwnFiles) (hst : s.files <+: t.files) : s.OwnFiles :=
  fun f hf g hg => h f (hst.subset hf) g (hst.subset hg)

theorem kept_write (s : Session) (e : Entry) :
    (s.write e).kept = s.kept ++
      if ((s.writer.write e.record e.source e.node).run s.disk).2.2 = none then [e] else [] := by
  unfold kept write
  rw [List.filterMap_append]
  cases ((s.writer.write e.record e.source e.node).run s.disk).2.2 <;> rfl

namespace Intact

variable (h : s.Intact dir runName)
include h

/-- The file of an open sink is the one at the outlet's path. -/
theorem place_eq {f : Path × Handle} (hf : f ∈ s.files) {x : Outlet} (hx : f.1 = x.path dir)
    {sink : Sink} (hsink : s.writer.sinks x = some sink) : f.2.place = sink.handle.place := by
  obtain ⟨g, hg, hpath, hplace⟩ := h.listed x sink hsink
  have hleads := h.leads g hg
  rw [hpath, ← hx, h.leads f hf] at hleads
  exact (Spot.found.inj (Except.ok.inj hleads)).trans hplace

/-- No open sink writes to a file that was opened for another. -/
theorem not_uses (hown : s.OwnFiles) {f : Path × Handle} (hf : f ∈ s.files) {x : Outlet}
    (hx : f.1 = x.path dir) (hnone : s.writer.sinks x = none) :
    ¬ s.writer.sinks.Uses f.2.place := by
  rintro ⟨y, sink, hy, hplace⟩
  obtain ⟨g, hg, hpath, hplace'⟩ := h.listed y sink hy
  have hgf := hown g hg f hf (hplace'.trans hplace)
  rw [hpath, hx] at hgf
  rw [Outlet.path_injective hgf, hnone] at hy
  cases hy

/-- A file holds an initial part of what its outlet is to have. -/
theorem bytesAt? {f : Path × Handle} (hf : f ∈ s.files) :
    ∃ x part rest, f.1 = Outlet.path dir x ∧ x.rendering runName s.kept = part ++ rest ∧
      s.disk.bytesAt? f.2.place = some part := by
  obtain ⟨x, hx, hempty⟩ := h.files f hf
  cases hsink : s.writer.sinks x with
  | none => exact ⟨x, [], _, hx, rfl, hempty hsink⟩
  | some sink =>
    obtain ⟨part, hpart, hfile⟩ := (h.holds.sinks.holds x sink hsink).bytesAt?
    exact ⟨x, part, _, hx, hpart, by rw [h.place_eq hf hx hsink, hfile]⟩

theorem bytesOf? {f : Path × Handle} (hf : f ∈ s.files) :
    s.disk.bytesOf? f.1 = s.disk.bytesAt? f.2.place :=
  Disk.bytesOf?_of_found (h.leads f hf)

end Intact

/-! ### Steps -/

/-- A new writer has opened the files of all nodes. -/
theorem Starts.intact (hs : s.Starts dir runName) (hown : s.OwnFiles) : s.Intact dir runName := by
  obtain ⟨hcwd, hfiles, hok⟩ := hs
  have hopens : (Writer.create dir runName).OpensOwn _ fun _ _ => False :=
    ⟨hfiles, hown, fun _ _ => id⟩
  obtain ⟨hdir, hname, hnodes, hholds, hwrite⟩ := Writer.create_holds hcwd hopens hok
  refine ⟨(Writer.create dir runName).run_hasCwd hcwd, hdir, hname, hholds, fun x => ?_,
    fun x sink hx => ?_, (Writer.create dir runName).locate_created hcwd, fun f hf => ?_⟩
  · obtain ⟨_ | _, form⟩ := x <;> simp [Writer.sinks, Writer.pair?, hnodes, Outlet.Occurs, kept]
  · obtain ⟨handle, hmem, hplace⟩ := (hwrite _ _).mpr ⟨x, sink, hx, rfl, rfl⟩
    exact ⟨_, hmem, rfl, hplace⟩
  · obtain ⟨x, sink, hx, hpath, -⟩ := (hwrite f.1 f.2.place).mp ⟨f.2, hf, rfl⟩
    exact ⟨x, hpath.symm, fun hnone => by rw [hx] at hnone; cases hnone⟩

namespace Intact

variable {e : Entry} (h : s.Intact dir runName)
include h

/-- What a call opens are files of its own. -/
theorem opensOwn (htakes : s.Takes e) (hown : (s.write e).OwnFiles) :
    (s.writer.write e.record e.source e.node).OpensOwn s.disk s.writer.sinks.UsesElse where
  files := htakes.files
  apart f hf g hg := hown f (List.mem_append_right _ hf) g (List.mem_append_right _ hg)
  free f hf := by
    rintro ⟨x, sink, hx, hne, hplace⟩
    obtain ⟨g, hg, hpath, hplace'⟩ := h.listed x sink hx
    have hgf := hown g (List.mem_append_left _ hg) f (List.mem_append_right _ hf)
      (hplace'.trans hplace)
    rw [hpath, ← h.dir_eq, ← h.holds.sinks.named x sink hx] at hgf
    exact hne hgf

/-- A call touches files of open sinks and files that it opens. -/
theorem touched (htakes : s.Takes e) (hown : (s.write e).OwnFiles) :
    ∀ place ∈ (s.writer.write e.record e.source e.node).touched s.disk,
      s.writer.sinks.Uses place ∨
        ∃ f ∈ (s.writer.write e.record e.source e.node).created s.disk, f.2.place = place := by
  intro place hplace
  obtain ⟨f, hf, rfl⟩ := Writer.write_touched h.cwd h.holds e (h.opensOwn htakes hown)
    h.holds.writeTo_openFiles place hplace
  rcases List.mem_append.mp hf with hf | hf
  · obtain ⟨x, sink, hx, -, hplace⟩ :=
      (h.holds.writeTo_openFiles f.1 f.2.place).mp ⟨f.2, hf, rfl⟩
    exact .inl ⟨x, sink, hx, hplace⟩
  · exact .inr ⟨f, hf, rfl⟩

/-- A call opens nothing but files of its node, and those if the node has no sinks. -/
theorem created_path : ∀ f ∈ (s.writer.write e.record e.source e.node).created s.disk,
    ∃ form, f.1 = Outlet.path dir ⟨.node e.node, form⟩ ∧
      s.writer.sinks ⟨.node e.node, form⟩ = none := by
  rw [Writer.write_created]
  intro f hf
  obtain ⟨hpair, form, hpath⟩ := Writer.openPair_created_path f hf
  exact ⟨form, h.dir_eq ▸ hpath, by simp [Writer.sinks, hpair]⟩

/-- A file whose sink is not open is left as it is, unless it is opened again. -/
theorem bytesAt?_write (htakes : s.Takes e) (hown : (s.write e).OwnFiles) {f : Path × Handle}
    (hf : f ∈ s.files) {x : Outlet} (hx : f.1 = x.path dir) (hnone : s.writer.sinks x = none)
    (hnew : ∀ g ∈ (s.writer.write e.record e.source e.node).created s.disk,
      g.2.place ≠ f.2.place) :
    (s.write e).disk.bytesAt? f.2.place = s.disk.bytesAt? f.2.place := by
  have hown' := hown.of_isPrefix (List.prefix_append s.files _)
  refine ((s.writer.write e.record e.source e.node).run_updates h.cwd).bytesAt? fun hplace => ?_
  rcases h.touched htakes hown _ hplace with huses | ⟨g, hg, hplace⟩
  · exact h.not_uses hown' hf hx hnone huses
  · exact hnew g hg hplace

/-- What a call opens again are files of its node, whose sinks are not open. -/
theorem opened_again (hown : (s.write e).OwnFiles) {f g : Path × Handle} (hf : f ∈ s.files)
    (hg : g ∈ (s.writer.write e.record e.source e.node).created s.disk)
    (hplace : g.2.place = f.2.place) {x : Outlet} (hx : f.1 = x.path dir) :
    x.group = .node e.node ∧ s.writer.sinks x = none := by
  obtain ⟨form, hpath, hnone⟩ := h.created_path g hg
  have hgf := hown g (List.mem_append_right _ hg) f (List.mem_append_left _ hf) hplace
  rw [hpath, hx] at hgf
  rw [← Outlet.path_injective hgf]
  exact ⟨rfl, hnone⟩

/-- A call that fails leaves the writer as it is, and the files that it has opened empty. -/
theorem write_of_failed (htakes : s.Takes e) (hown : (s.write e).OwnFiles) {failure : SinkError}
    (hresult : ((s.writer.write e.record e.source e.node).run s.disk).2 =
      (s.writer, some failure))
    (hholds : s.writer.Holds (s.write e).disk fun x => x.rendering runName s.kept)
    (hempty : ∀ f ∈ (s.writer.write e.record e.source e.node).created s.disk,
      (s.write e).disk.bytesAt? f.2.place = some [])
    (hleads : ∀ f ∈ (s.write e).files,
      (s.write e).disk.locate true f.1 = .ok (.found f.2.place)) :
    (s.write e).Intact dir runName := by
  have hwriter : (s.write e).writer = s.writer := congrArg Prod.fst hresult
  have hkept := s.kept_write e
  rw [if_neg (by rw [hresult]; simp), List.append_nil] at hkept
  refine ⟨(s.writer.write e.record e.source e.node).run_hasCwd h.cwd, hwriter ▸ h.dir_eq,
    hwriter ▸ h.name_eq, ?_, ?_, ?_, hleads, fun f hf => ?_⟩
  · rw [hwriter, hkept]
    exact hholds
  · rw [hwriter, hkept]
    exact h.open_iff
  · rw [hwriter]
    intro x sink hx
    obtain ⟨f, hf, hfile⟩ := h.listed x sink hx
    exact ⟨f, List.mem_append_left _ hf, hfile⟩
  · rw [hwriter]
    rcases List.mem_append.mp hf with hf | hf
    · obtain ⟨x, hx, hbytes⟩ := h.files f hf
      refine ⟨x, hx, fun hnone => ?_⟩
      by_cases hnew : ∃ g ∈ (s.writer.write e.record e.source e.node).created s.disk,
          g.2.place = f.2.place
      · obtain ⟨g, hg, hplace⟩ := hnew
        rw [← hplace, hempty g hg]
      · rw [h.bytesAt?_write htakes hown hf hx hnone fun g hg hplace => hnew ⟨g, hg, hplace⟩,
          hbytes hnone]
    · obtain ⟨form, hpath, -⟩ := h.created_path f hf
      exact ⟨_, hpath, fun _ => hempty f hf⟩

/-- A call that succeeds is one more that counts. -/
theorem write_of_succeeded (htakes : s.Takes e) (hown : (s.write e).OwnFiles)
    (hnone : ((s.writer.write e.record e.source e.node).run s.disk).2.2 = none)
    (hdir : (s.write e).writer.dir = s.writer.dir)
    (hname : (s.write e).writer.runName = s.writer.runName)
    (hholds : (s.write e).writer.Holds (s.write e).disk fun x =>
      x.rendering runName s.kept ++ if x ∈ e.outlets then e.line s.writer.runName x.form else [])
    (hopen : ∀ x, ((s.write e).writer.sinks x).isSome ↔
      (s.writer.sinks x).isSome ∨ x.group = .node e.node)
    (hfiles : (s.write e).writer.sinks.WriteTo s.writer.dir
      (s.writer.openFiles ++ (s.writer.write e.record e.source e.node).created s.disk))
    (hleads : ∀ f ∈ (s.write e).files,
      (s.write e).disk.locate true f.1 = .ok (.found f.2.place)) :
    (s.write e).Intact dir runName := by
  have hkept := s.kept_write e
  rw [if_pos hnone] at hkept
  refine ⟨(s.writer.write e.record e.source e.node).run_hasCwd h.cwd, hdir.trans h.dir_eq,
    hname.trans h.name_eq, ?_, fun x => ?_, fun x sink hx => ?_, hleads, fun f hf => ?_⟩
  · rw [hkept]
    simp only [Outlet.rendering_concat]
    rwa [h.name_eq] at hholds
  · rw [hopen x, h.open_iff x, hkept]
    simp [Outlet.Occurs, or_and_right, exists_or, or_assoc]
  · obtain ⟨handle, hmem, hplace⟩ := (hfiles _ _).mpr ⟨x, sink, hx, rfl, rfl⟩
    rw [h.dir_eq] at hmem
    rcases List.mem_append.mp hmem with hmem | hmem
    · obtain ⟨old, hold, heq⟩ := List.mem_map.mp hmem
      obtain ⟨hpath, rfl⟩ := Prod.mk.inj heq
      obtain ⟨y, hy⟩ := Writer.exists_outlet h.holds.once hold
      obtain ⟨f, hf, hfpath, hfplace⟩ := h.listed y old hy
      rw [h.holds.sinks.named y old hy, h.dir_eq] at hpath
      exact ⟨f, List.mem_append_left _ hf, hfpath.trans hpath, hfplace.trans hplace⟩
    · exact ⟨_, List.mem_append_right _ hmem, rfl, hplace⟩
  · rcases List.mem_append.mp hf with hf | hf
    · obtain ⟨x, hx, hbytes⟩ := h.files f hf
      refine ⟨x, hx, fun hclosed => ?_⟩
      have hnot := mt (hopen x).mpr (by simp [hclosed])
      have hbefore : s.writer.sinks x = none := by
        simpa using fun h => hnot (.inl h)
      rw [h.bytesAt?_write htakes hown hf hx hbefore fun g hg hplace => ?_, hbytes hbefore]
      exact hnot (.inr (h.opened_again hown hf hg hplace hx).1)
    · obtain ⟨form, hpath, -⟩ := h.created_path f hf
      have hsome := (hopen ⟨.node e.node, form⟩).mpr (.inr rfl)
      exact ⟨_, hpath, fun hclosed => by simp [hclosed] at hsome⟩

theorem write (htakes : s.Takes e) (hown : (s.write e).OwnFiles) :
    (s.write e).Intact dir runName := by
  have hu := (s.writer.write e.record e.source e.node).run_updates h.cwd
  have hleads : ∀ f ∈ (s.write e).files,
      (s.write e).disk.locate true f.1 = .ok (.found f.2.place) := by
    intro f hf
    rcases List.mem_append.mp hf with hf | hf
    · exact hu.locate_found (h.leads f hf)
    · exact (s.writer.write e.record e.source e.node).locate_created h.cwd f hf
  rcases Writer.write_of_accepted h.cwd h.holds e (h.opensOwn htakes hown) htakes.accepted with
    ⟨failure, hresult, hholds, hempty⟩ | ⟨hnone, hdir, hname, hholds, hopen, hfiles⟩
  · exact h.write_of_failed htakes hown hresult hholds hempty hleads
  · exact h.write_of_succeeded htakes hown hnone hdir hname hholds hopen hfiles hleads

theorem meanwhile {later : Disk} (hcwd : later.HasCwd)
    (hsame : ∀ f ∈ s.files, later.locate true f.1 = .ok (.found f.2.place) ∧
      later.root.at? f.2.place = s.disk.root.at? f.2.place) :
    Intact dir runName { s with disk := later } where
  cwd := hcwd
  dir_eq := h.dir_eq
  name_eq := h.name_eq
  holds := by
    refine ⟨{ h.holds.sinks with holds := fun x sink hx => ?_ }, h.holds.once⟩
    obtain ⟨f, hf, -, hplace⟩ := h.listed x sink hx
    have hfile := (hsame f hf).2
    rw [hplace] at hfile
    unfold Sink.Holds
    rw [hfile]
    exact h.holds.sinks.holds x sink hx
  open_iff := h.open_iff
  listed := h.listed
  leads f hf := (hsame f hf).1
  files f hf := by
    obtain ⟨x, hx, hempty⟩ := h.files f hf
    refine ⟨x, hx, fun hnone => ?_⟩
    rw [Disk.bytesAt?, (hsame f hf).2]
    exact hempty hnone

/-- The nodes that have sinks are those with an entry that was kept. -/
theorem nodeCount_eq : s.writer.nodeCount = (s.kept.map Entry.node).dedup.length := by
  have hmem (n : Nat) : n ∈ s.writer.nodes.map Prod.fst ↔ n ∈ s.kept.map Entry.node := by
    have hopen := h.open_iff ⟨.node n, .json⟩
    have hkey : (s.writer.sinks ⟨.node n, .json⟩).isSome ↔ n ∈ s.writer.nodes.map Prod.fst := by
      simp [Writer.sinks, Writer.pair?, List.lookup_isSome_iff]
    rw [← hkey, hopen]
    simp [Outlet.Occurs, eq_comm]
  have hperm := (List.perm_ext_iff_of_nodup h.holds.once (List.nodup_dedup _)).mpr fun n =>
    (hmem n).trans List.mem_dedup.symm
  rw [Writer.nodeCount, ← List.length_map Prod.fst, hperm.length_eq]

/-- Nothing of a file is lost by a call: it holds more of what its outlet is to have. -/
theorem extends_write (htakes : s.Takes e) (hown : (s.write e).OwnFiles) {f : Path × Handle}
    (hf : f ∈ s.files) {bytes : Bytes} (hbytes : s.disk.bytesAt? f.2.place = some bytes) :
    ∃ rest, (s.write e).disk.bytesAt? f.2.place = some (bytes ++ rest) := by
  obtain ⟨x, part, waiting, hx, hgiven, hpart⟩ := h.bytesAt? hf
  obtain ⟨y, part', waiting', hy, hgiven', hpart'⟩ :=
    (h.write htakes hown).bytesAt? (List.mem_append_left _ hf)
  cases hbytes.symm.trans hpart
  obtain rfl := Outlet.path_injective (hx.symm.trans hy)
  have hlength : bytes.length ≤ part'.length := by
    by_cases hnew : ∃ g ∈ (s.writer.write e.record e.source e.node).created s.disk,
        g.2.place = f.2.place
    · -- what is opened again was empty
      obtain ⟨g, hg, hplace⟩ := hnew
      obtain ⟨z, hz, hempty⟩ := h.files f hf
      cases hpart.symm.trans (hempty (h.opened_again hown hf hg hplace hz).2)
      exact Nat.zero_le _
    · obtain ⟨later, hlater, hle⟩ := Writer.write_length_le h.cwd e hpart
        fun g hg hplace => hnew ⟨g, hg, hplace⟩
      cases hlater.symm.trans hpart'
      exact hle
  have hprefix : bytes <+: x.rendering runName (s.write e).kept := by
    rw [kept_write, Outlet.rendering_append, hgiven, List.append_assoc]
    exact List.prefix_append _ _
  obtain ⟨rest, rfl⟩ :=
    List.prefix_of_prefix_length_le hprefix (hgiven' ▸ List.prefix_append _ _) hlength
  exact ⟨rest, hpart'⟩

end Intact

/-- Files that are open stay open. -/
theorem Step.files_isPrefix (h : Step s t) : s.files <+: t.files := by
  cases h with
  | write => exact List.prefix_append _ _
  | meanwhile => exact List.prefix_refl _

theorem files_isPrefix (hst : Relation.ReflTransGen Step s t) : s.files <+: t.files := by
  induction hst with
  | refl => exact List.prefix_refl _
  | tail _ hstep ih => exact ih.trans hstep.files_isPrefix

theorem Intact.step (h : s.Intact dir runName) (hst : Step s t) (hown : t.OwnFiles) :
    t.Intact dir runName := by
  cases hst with
  | write htakes => exact h.write htakes hown
  | meanwhile hcwd hsame => exact h.meanwhile hcwd hsame

/-- What is there of a file stays there in a later state. -/
def Extends (s t : Session) : Prop :=
  ∀ f ∈ s.files, ∀ bytes, s.disk.bytesAt? f.2.place = some bytes →
    ∃ rest, t.disk.bytesAt? f.2.place = some (bytes ++ rest)

theorem Extends.refl (s : Session) : s.Extends s :=
  fun _ _ bytes hbytes => ⟨[], by rw [hbytes, List.append_nil]⟩

theorem Extends.trans (h : s.Extends t) (h' : t.Extends u) (hst : s.files <+: t.files) :
    s.Extends u := by
  intro f hf bytes hbytes
  obtain ⟨rest, hrest⟩ := h f hf bytes hbytes
  obtain ⟨more, hmore⟩ := h' f (hst.subset hf) _ hrest
  exact ⟨rest ++ more, by rw [hmore, List.append_assoc]⟩

theorem Intact.extends_step (h : s.Intact dir runName) (hst : Step s t) (hown : t.OwnFiles) :
    s.Extends t := by
  intro f hf bytes hbytes
  cases hst with
  | write htakes => exact h.extends_write htakes hown hf hbytes
  | meanwhile hcwd hsame =>
    refine ⟨[], ?_⟩
    rw [Disk.bytesAt?, (hsame f hf).2, List.append_nil]
    exact hbytes

/-- Whatever happens, the writer stays intact, and nothing is lost. -/
theorem Intact.reach (h : s.Intact dir runName) (hst : Relation.ReflTransGen Step s t)
    (hown : t.OwnFiles) : t.Intact dir runName ∧ s.Extends t := by
  induction hst with
  | refl => exact ⟨h, .refl _⟩
  | tail hst hstep ih =>
    obtain ⟨hmid, hextends⟩ := ih (hown.of_isPrefix hstep.files_isPrefix)
    exact ⟨hmid.step hstep hown,
      hextends.trans (hmid.extends_step hstep hown) (files_isPrefix hst)⟩

/-! ### Ends -/

namespace Intact

variable (h : s.Intact dir runName)
include h

/-- Either end changes nothing but the files of open sinks, and these have all their bytes. -/
theorem ends_holds {last : Disk} (hends : s.Ends last) :
    Disk.Updates s.writer.sinks.Uses s.disk last ∧ ∀ x sink, s.writer.sinks x = some sink →
      last.bytesAt? sink.handle.place = some (x.rendering runName s.kept) := by
  cases hends with
  | finish hok =>
    refine ⟨(s.writer.finish.run_updates h.cwd).mono
      ((Writer.finish_uses h.holds.once).touched_sub s.disk), fun x sink hx => ?_⟩
    obtain ⟨part, rest, hgiven, hfile, hall⟩ := Writer.finish_bytesAt? h.cwd h.holds hx
    have hnone := Writer.finish_ok (s.writer.finish_writesTo.granted hok)
    rw [hfile, hgiven, hall hnone, List.append_nil]
  | release hok =>
    refine ⟨(s.writer.release.run_updates h.cwd).mono
      ((Writer.release_uses h.holds.once).touched_sub s.disk), fun x sink hx => ?_⟩
    obtain ⟨part, rest, hgiven, hfile, hall⟩ := Writer.release_bytesAt? h.cwd h.holds hx
    rw [hfile, hgiven, hall (s.writer.release_writesTo.granted hok), List.append_nil]

/-- At the end, every file that was opened holds the lines of its outlet. -/
theorem ends_bytesAt? (hown : s.OwnFiles) {last : Disk} (hends : s.Ends last) {f : Path × Handle}
    (hf : f ∈ s.files) :
    ∃ x : Outlet, f.1 = x.path dir ∧ last.locate true f.1 = .ok (.found f.2.place) ∧
      last.bytesAt? f.2.place = some (x.rendering runName s.kept) := by
  obtain ⟨hu, hsinks⟩ := h.ends_holds hends
  obtain ⟨x, hx, hempty⟩ := h.files f hf
  refine ⟨x, hx, hu.locate_found (h.leads f hf), ?_⟩
  cases hsink : s.writer.sinks x with
  | none =>
    rw [hu.bytesAt? (h.not_uses hown hf hx hsink), hempty hsink,
      show x.rendering runName s.kept = [] from h.holds.sinks.unused x hsink]
  | some sink => rw [h.place_eq hf hx hsink, hsinks x sink hsink]

end Intact

/-- What a writer leaves behind after any calls to which no device refused a write, wherever
sinks could not be opened on the way. At every point it counts the nodes with an entry that was
kept. At the end the files of all nodes, and those of these nodes, hold the lines of the entries
that were kept, in order, and any other file that was opened is empty. A call changes no file
that the writer has not opened, and what is in a file stays there. -/
theorem files_of_calls (hs : s.Starts dir runName) (hst : Relation.ReflTransGen Step s t)
    (htu : Relation.ReflTransGen Step t u) (hown : u.OwnFiles) :
    t.writer.nodeCount = (t.kept.map Entry.node).dedup.length ∧
    (u.writer.finish.Accepted u.disk → (u.writer.finish.run u.disk).2 = none) ∧
    (∀ last, u.Ends last →
      (∀ x : Outlet, x.Occurs u.kept →
        last.bytesOf? (x.path dir) = some (x.rendering runName u.kept)) ∧
      ∀ f ∈ u.files, ∃ x : Outlet, f.1 = x.path dir ∧
        last.bytesOf? f.1 = some (x.rendering runName u.kept)) ∧
    (∀ e, t.Takes e → (t.write e).OwnFiles → ∀ place,
      (∀ f ∈ (t.write e).files, f.2.place ≠ place) →
        (t.write e).disk.bytesAt? place = t.disk.bytesAt? place) ∧
    ∀ f ∈ t.files, ∃ bytes rest, t.disk.bytesOf? f.1 = some bytes ∧
      u.disk.bytesOf? f.1 = some (bytes ++ rest) ∧
      ∀ last, u.Ends last → ∃ more, last.bytesOf? f.1 = some (bytes ++ rest ++ more) := by
  have hfiles : t.files <+: u.files := files_isPrefix htu
  have hstart := hs.intact (hown.of_isPrefix ((files_isPrefix hst).trans hfiles))
  obtain ⟨ht, -⟩ := hstart.reach hst (hown.of_isPrefix hfiles)
  obtain ⟨hu, hextends⟩ := ht.reach htu hown
  have hends {last : Disk} (hlast : u.Ends last) {f : Path × Handle} (hf : f ∈ u.files) :
      ∃ x : Outlet, f.1 = x.path dir ∧
        last.bytesOf? f.1 = some (x.rendering runName u.kept) := by
    obtain ⟨x, hx, hlocate, hfile⟩ := hu.ends_bytesAt? hown hlast hf
    exact ⟨x, hx, by rw [Disk.bytesOf?_of_found hlocate, hfile]⟩
  refine ⟨ht.nodeCount_eq, fun hok => Writer.finish_ok (u.writer.finish_writesTo.granted hok),
    fun last hlast => ⟨fun x hx => ?_, fun f hf => hends hlast hf⟩, ?_, fun f hf => ?_⟩
  · -- the outlet has an open sink, whose file was opened by its path
    obtain ⟨sink, hsink⟩ := Option.isSome_iff_exists.mp ((hu.open_iff x).mpr hx)
    obtain ⟨f, hf, hpath, -⟩ := hu.listed x sink hsink
    obtain ⟨y, hy, hbytes⟩ := hends hlast hf
    obtain rfl := Outlet.path_injective (hpath.symm.trans hy)
    rw [← hpath, hbytes]
  · intro e htakes hown place hother
    refine ((t.writer.write e.record e.source e.node).run_updates ht.cwd).bytesAt? fun hplace => ?_
    rcases ht.touched htakes hown place hplace with ⟨x, sink, hx, hsink⟩ | ⟨g, hg, hnew⟩
    · obtain ⟨g, hg, -, hopen⟩ := ht.listed x sink hx
      exact hother g (List.mem_append_left _ hg) (hopen.trans hsink)
    · exact hother g (List.mem_append_right _ hg) hnew
  · obtain ⟨x, bytes, waiting, hx, -, hbytes⟩ := ht.bytesAt? hf
    obtain ⟨rest, hrest⟩ := hextends f hf bytes hbytes
    have hfu := hfiles.subset hf
    refine ⟨bytes, rest, by rw [ht.bytesOf? hf, hbytes], by rw [hu.bytesOf? hfu, hrest],
      fun last hlast => ?_⟩
    obtain ⟨y, part, more, hy, hgiven, hpart⟩ := hu.bytesAt? hfu
    obtain ⟨z, hz, hfinal⟩ := hends hlast hfu
    obtain rfl := Outlet.path_injective (hy.symm.trans hz)
    cases hrest.symm.trans hpart
    exact ⟨more, by rw [hfinal, hgiven]⟩

/-! ### A retry, and files that are shared -/

instance (s : Session) : Decidable s.OwnFiles :=
  inferInstanceAs (Decidable (∀ f ∈ s.files, ∀ g ∈ s.files, f.2.place = g.2.place → f.1 = g.1))

instance (s : Session) (e : Entry) : Decidable (s.Takes e) :=
  decidable_of_iff ((∀ c ∈ (s.writer.write e.record e.source e.node).history s.disk,
      c.1.OpensFile c.2) ∧ (s.writer.write e.record e.source e.node).Accepted s.disk)
    ⟨fun ⟨hfiles, haccepted⟩ => ⟨hfiles, haccepted⟩, fun ⟨hfiles, haccepted⟩ => ⟨hfiles, haccepted⟩⟩

/-- A directory for outputs in which a directory has the name of a file of node 5. -/
def squatted : Disk where
  root := .dir [(FullDevice.name "o", .dir [(FullDevice.name "node5.log", .dir [])])]
  cwd := []

/-- The writer that is created there. -/
def opened : Session :=
  let result := (Writer.create (.ofString "o") []).run squatted
  ⟨result.1, FullDevice.writer, (Writer.create (.ofString "o") []).created squatted, []⟩

/-- A call for node 5, one for node 1, and once the obstacle is gone another one for node 5. -/
def blocked : Session :=
  (opened.write (FullDevice.entry 5 "Vote".toList)).write (FullDevice.entry 1 "Vote".toList)

def cleared : Session :=
  { blocked with disk := (blocked.disk.remove (.ofString "o/node5.log")).1 }

def retried : Session :=
  cleared.write (FullDevice.entry 5 "Vote".toList)

/-- A file of the directory, as it was opened. -/
def opening (file : String) : Path × Handle :=
  (.ofString ("o/" ++ file), ⟨[FullDevice.name "o", FullDevice.name file], 0, 0⟩)

theorem files_blocked : blocked.files =
    ["all_nodes.jsonl", "all_nodes.log", "node5.jsonl", "node1.jsonl", "node1.log"].map
      opening := by
  decide +kernel

/-- Is it a file as the first ones are made? -/
def isNew : Option Node → Bool
  | some (.file 0 [] .normal) => true
  | _ => false

theorem eq_of_isNew {n : Option Node} (h : isNew n) : n = some (.file 0 [] .normal) := by
  unfold isNew at h
  split at h
  · rfl
  · cases h

theorem starts_opened : Starts (.ofString "o") [] opened :=
  .create (by decide +kernel) (by decide +kernel) rfl

theorem reach_retried : Relation.ReflTransGen Step opened retried := by
  have hfirst : Step opened (opened.write (FullDevice.entry 5 "Vote".toList)) :=
    .write (by decide +kernel)
  have hsecond : Step (opened.write (FullDevice.entry 5 "Vote".toList)) blocked :=
    .write (by decide +kernel)
  have hcleared : Step blocked cleared := by
    refine .meanwhile (by decide +kernel) fun f hf => ?_
    rw [files_blocked, List.mem_map] at hf
    obtain ⟨file, hfile, rfl⟩ := hf
    simp only [List.mem_cons, List.not_mem_nil, or_false] at hfile
    have hnew : isNew (blocked.disk.root.at? (opening file).2.place) ∧
        isNew ((blocked.disk.remove (.ofString "o/node5.log")).1.root.at?
          (opening file).2.place) := by
      rcases hfile with rfl | rfl | rfl | rfl | rfl <;> decide +kernel
    refine ⟨?_, (eq_of_isNew hnew.2).trans (eq_of_isNew hnew.1).symm⟩
    rcases hfile with rfl | rfl | rfl | rfl | rfl <;> decide +kernel
  have hlast : Step cleared retried := .write (by decide +kernel)
  exact ((Relation.ReflTransGen.single hfirst).tail hsecond).tail hcleared |>.tail hlast

theorem files_of_calls_retry :
    Starts (.ofString "o") [] opened ∧ Relation.ReflTransGen Step opened retried ∧
      retried.OwnFiles ∧ retried.calls.map (·.2.isNone) = [false, true, true] ∧
      retried.writer.nodeCount = 2 ∧ (retried.writer.finish.run retried.disk).2 = none ∧
      (retried.writer.finish.run retried.disk).1.bytesOf?
          (Outlet.path (.ofString "o") ⟨.node 5, .plain⟩) =
        some ((FullDevice.entry 5 "Vote".toList).line [] .plain) := by
  have hown : retried.OwnFiles := by decide +kernel
  have hcalls : retried.calls.map (·.2.isNone) = [false, true, true] := by decide +kernel
  obtain ⟨hcount, hfinish, hends, -⟩ := files_of_calls starts_opened reach_retried .refl hown
  have haccepted : retried.writer.finish.Accepted retried.disk := by decide +kernel
  have hkept : retried.kept =
      [FullDevice.entry 1 "Vote".toList, FullDevice.entry 5 "Vote".toList] := by
    obtain ⟨first, second, third, heq⟩ : ∃ first second third, retried.calls =
        [(FullDevice.entry 5 "Vote".toList, first), (FullDevice.entry 1 "Vote".toList, second),
          (FullDevice.entry 5 "Vote".toList, third)] := ⟨_, _, _, rfl⟩
    rw [heq] at hcalls
    simp only [List.map_cons, List.map_nil, List.cons.injEq, and_true, Option.isNone_iff_eq_none,
      Option.isNone_eq_false_iff, Option.isSome_iff_exists] at hcalls
    obtain ⟨⟨failure, rfl⟩, rfl, rfl⟩ := hcalls
    rw [kept, heq]
    rfl
  have hoccurs : Outlet.Occurs retried.kept ⟨.node 5, .plain⟩ := by
    simp [hkept, Outlet.Occurs, FullDevice.entry]
  have hbytes := (hends _ (.finish haccepted)).1 ⟨.node 5, .plain⟩ hoccurs
  rw [hkept] at hcount hbytes
  refine ⟨starts_opened, reach_retried, hown, hcalls, hcount, hfinish haccepted, ?_⟩
  rw [hbytes]
  rfl

/-- It takes files of their own: where the JSON file of node 0 is a link to the plain file of all
nodes, that does not hold the line of the one entry that was kept. -/
theorem files_of_calls_shared :
    let e := FullDevice.entry 0 "Vote".toList
    let s : Session := ⟨((Writer.create (.ofString "o") []).run FullDevice.shared).1,
      FullDevice.writer, (Writer.create (.ofString "o") []).created FullDevice.shared, []⟩
    let last := ((s.write e).writer.finish.run (s.write e).disk).1
    Starts (.ofString "o") [] s ∧ Relation.ReflTransGen Step s (s.write e) ∧
      (s.write e).Ends last ∧ (s.write e).calls.map Prod.snd = [none] ∧
      Outlet.Occurs (s.write e).kept ⟨.all, .plain⟩ ∧
      last.bytesOf? (Outlet.path (.ofString "o") ⟨.all, .plain⟩) ≠
        some (Outlet.rendering [] (s.write e).kept ⟨.all, .plain⟩) := by
  intro e s last
  refine ⟨.create (by decide +kernel) (by decide +kernel) rfl,
    .single (.write (by decide +kernel)), .finish (by decide +kernel),
    by decide +kernel, .inl rfl, by decide +kernel⟩

end Session

end NodeLogs
