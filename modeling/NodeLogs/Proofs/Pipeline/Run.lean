import NodeLogs.Proofs.Pipeline.Course

/-! What a run leaves behind. Nothing that a run keeps is lost without a word: if no
failure is reported, the file of every outlet has the lines of all its entries, in
order, and nothing else. -/

namespace NodeLogs

namespace Kept

variable {s : Setup} {disk : Disk} {p : Progress} {files : List (Path × Handle)} {scanned : Nat}
  {es : List Entry}

/-- With a new writer nothing is kept yet. -/
theorem ofCreate {logs : Place → Prop} {dir : Path} {runName : Text} {made : Disk} {w : Writer}
    (hcwd : disk.HasCwd) (hown : (Writer.create dir runName).OpensOwn disk fun _ => logs)
    (hcreate : (Writer.create dir runName).run disk = (made, .ok w)) :
    Kept ⟨disk, logs, dir, runName⟩ made { writer := w } ((Writer.create dir runName).created disk)
      0 [] := by
  obtain rfl := congrArg Prod.fst hcreate
  obtain ⟨hdir, hname, hnodes, hholds, hfiles⟩ :=
    Writer.create_holds hcwd hown (congrArg Prod.snd hcreate)
  refine ⟨rfl, rfl, (Writer.create dir runName).run_hasCwd hcwd, hdir, hname, hholds, hfiles,
    fun x => ?_, hown.free, Writer.create_sameFiles hcwd hown.free⟩
  obtain ⟨g, form⟩ := x
  cases g with
  | node n => simp [Writer.sinks, Writer.pair?, hnodes, Outlet.Occurs]
  | all => simp [Writer.sinks, Outlet.Occurs]

/-- When the writer is finished without a failure, every outlet's file has all its lines. -/
theorem finish (h : Kept s disk p files scanned es)
    (hok : (p.writer.finish.run disk).2 = none) :
    (∀ f ∈ files, ∃ x : Outlet, x.Occurs es ∧ x.path s.dir = f.1 ∧
      (p.writer.finish.run disk).1.bytesAt? f.2.place = some (x.rendering s.runName es)) ∧
    ∀ x : Outlet, x.Occurs es → ∃ handle, (x.path s.dir, handle) ∈ files := by
  constructor
  · intro f hf
    obtain ⟨x, sink, hx, hpath, hplace⟩ := (h.files_iff f.1 f.2.place).mp ⟨f.2, hf, rfl⟩
    obtain ⟨part, rest, hbytes, hfile, hall⟩ := Writer.finish_bytesAt? h.cwd h.holds hx
    obtain rfl := hall hok
    refine ⟨x, (h.open_iff x).mp (by simp [hx]), hpath, ?_⟩
    rw [← hplace, hfile, hbytes, List.append_nil]
  · intro x hx
    obtain ⟨sink, hsink⟩ := Option.isSome_iff_exists.mp ((h.open_iff x).mpr hx)
    obtain ⟨handle, hmem, -⟩ := (h.files_iff (x.path s.dir) _).mpr ⟨x, sink, hsink, rfl, rfl⟩
    exact ⟨handle, hmem⟩

/-- Finishing changes no log. -/
theorem finish_sameFiles (h : Kept s disk p files scanned es) :
    Disk.SameFiles s.logs s.disk (p.writer.finish.run disk).1 := by
  refine h.same.trans ((p.writer.finish.run_updates h.cwd).sameFiles fun place hlogs hmem => ?_)
  obtain ⟨x, sink, hx, rfl⟩ := (Writer.finish_uses h.holds.once).touched_sub disk place hmem
  obtain ⟨handle, hf, heq⟩ := (h.files_iff _ _).mpr ⟨x, sink, hx, rfl, rfl⟩
  exact h.free _ hf (heq ▸ hlogs)

end Kept

namespace Pipeline

variable (pl : Pipeline) (run : Run) {disk : Disk}

/-- The logs that a run opens, with their lines as they are when it begins. -/
def readings (disk : Disk) : List Reading :=
  disk.readings ((pl.filterRun run).opened disk)

/-- What a run should keep. -/
def entries (disk : Disk) : List Entry :=
  Reading.entries pl.selection (pl.readings run disk)

/-- All lines of the logs are counted, each outlet that occurs has a file, and every file
that the run has opened for writing has the lines of its outlet's entries, in order, and
no more. -/
structure Complete (disk : Disk) : Prop where
  counts : ((pl.filterRun run).run disk).2.1.counts =
    ⟨Reading.lineCount (pl.readings run disk), (pl.entries run disk).length⟩
  outlets : ∀ x : Outlet, x.Occurs (pl.entries run disk) →
    ∃ h, (x.path (run.outputDir pl.outSubdir), h) ∈ (pl.filterRun run).created disk
  files : ∀ f ∈ (pl.filterRun run).created disk, ∃ x : Outlet,
    x.Occurs (pl.entries run disk) ∧ x.path (run.outputDir pl.outSubdir) = f.1 ∧
    ((pl.filterRun run).run disk).1.bytesAt? f.2.place =
      some (x.rendering run.name (pl.entries run disk))

section Own

variable {pl run} (hcwd : disk.HasCwd) {logs : Place → Prop}
  (hown : (pl.filterRun run).OpensOwn disk fun _ => logs)
  (hopened : ∀ f ∈ (pl.filterRun run).opened disk, logs f.2.place)
include hcwd hown hopened

/-- When a run has walked through its logs and output has not failed, all entries are kept. -/
theorem Course.kept {made later : Disk} {w : Writer} {p : Progress}
    (h : pl.Course run disk made later w p) (hgoing : p.failure = none) :
    Kept ⟨disk, logs, run.outputDir pl.outSubdir, run.name⟩ later p
      ((pl.filterRun run).created disk) (Reading.lineCount (pl.readings run disk))
      (pl.entries run disk) := by
  have hreads : (pl.takeAll run w).Reads ⟨disk, logs, run.outputDir pl.outSubdir, run.name⟩
      pl.selection made _ 0 [] :=
    Walk.walk_reads pl.selection pl.reach run.path
      (.ofCreate hcwd (create_opensOwn hown) h.create)
  rw [h.opened_eq] at hopened
  have hkept := hreads hopened (h.opensOwn hown)
  rw [h.walk, ← h.opened_eq, ← h.created_eq, Nat.zero_add, List.nil_append] at hkept
  exact hkept hgoing

/-- A run that reports no failure is complete, and where it has opened nothing for
writing the files are what they were. -/
theorem filterRun_leaves (hok : ((pl.filterRun run).run disk).2.1.error = none) :
    pl.Complete run disk ∧ Disk.SameFiles logs disk ((pl.filterRun run).run disk).1 := by
  obtain ⟨made, later, w, p, hcourse, hgoing, hfinished, hrun⟩ := exists_course_of_ok hok
  have hkept := hcourse.kept hcwd hown hopened hgoing
  obtain ⟨hfiles, houtlets⟩ := hkept.finish hfinished
  have hcounts : ((pl.filterRun run).run disk).2.1.counts = _ :=
    (congrArg (fun result => result.2.1.counts) hrun).trans hkept.counts
  rw [← congrArg Prod.fst hrun] at hfiles
  exact ⟨⟨hcounts, houtlets, hfiles⟩, congrArg Prod.fst hrun ▸ hkept.finish_sameFiles⟩

end Own

/-- On files of its own, a run that reports no failure is complete, whatever the disk and
its devices are like. -/
theorem filterRun_complete (hcwd : disk.HasCwd)
    (hown : (pl.filterRun run).OpensOwn disk fun _ place =>
      ∃ f ∈ (pl.filterRun run).opened disk, f.2.place = place)
    (hok : ((pl.filterRun run).run disk).2.1.error = none) : pl.Complete run disk :=
  (filterRun_leaves hcwd hown (fun f hf => ⟨f, hf, rfl⟩) hok).1

end Pipeline

/-! ### A run with one log -/

namespace OneVote

def name (s : String) : Name :=
  Utf8.encode s.toList

/-- The log of node 0 holds a vote; its first reading delivers five bytes. -/
def disk : Disk where
  root := .dir [(name "r", .dir [(name "stdout_0.log",
    .file 0 (name "2024-01-01T00:00:00Z [t] INFO a:1 Vote\n") .normal)])]
  cwd := []
  faults := { reads := [([name "r", name "stdout_0.log"], 5)] }

def pipeline : Pipeline where
  selection := ⟨.ofKeywords ["Vote".toList], .all⟩
  outSubdir := .ofString "o"
  reach := 3

def run : Run :=
  ⟨.ofString "r", "r".toList⟩

end OneVote

/-! ### A run with several logs -/

namespace SeveralLogs

open OneVote (name)

/-- The logs are listed in no order. One is locked, one breaks off within a line, and one ends
without a line feed; that of node 0 is read in two pieces. -/
def disk : Disk where
  root := .dir [(name "r", .dir [
    (name "sub", .dir [(name "stderr_0.log",
      .file 3 (name "2024-01-01T00:00:02Z [t] ERROR a:1 Vote") .normal)]),
    (name "stdout_2.log", .file 2 (name "2024-01-01T00:00:00Z [t] INFO a:1 Vote\n") .locked),
    (name "stdout_1.log",
      .file 1 (name "2024-01-01T00:00:01Z [t] DEBUG a:2 Vote\nidle\n2024-01-01") .broken),
    (name "stdout_0.log",
      .file 0 (name "idle\n2024-01-01T00:00:00Z [t] INFO a:1 Vote\n") .normal)])]
  cwd := []
  faults := { reads := [([name "r", name "stdout_0.log"], 7)] }

end SeveralLogs

namespace Pipeline

open OneVote in
theorem filterRun_complete_severalLogs :
    (pipeline.readings OneVote.run SeveralLogs.disk).length = 3 ∧
      (pipeline.entries OneVote.run SeveralLogs.disk).map Entry.node = [0, 1, 0] ∧
      ((pipeline.filterRun OneVote.run).run SeveralLogs.disk).2.1.error = none ∧
      ((pipeline.filterRun OneVote.run).run SeveralLogs.disk).2.1.counts = ⟨5, 3⟩ ∧
      pipeline.Complete OneVote.run SeveralLogs.disk := by
  have hcomputed : (pipeline.readings OneVote.run SeveralLogs.disk).length = 3 ∧
      (pipeline.entries OneVote.run SeveralLogs.disk).map Entry.node = [0, 1, 0] ∧
      ((pipeline.filterRun OneVote.run).run SeveralLogs.disk).2.1.error = none ∧
      ((pipeline.filterRun OneVote.run).run SeveralLogs.disk).2.1.counts = ⟨5, 3⟩ := by
    decide +kernel
  obtain ⟨hreadings, hentries, hok, hcounts⟩ := hcomputed
  exact ⟨hreadings, hentries, hok, hcounts,
    filterRun_complete pipeline OneVote.run (by decide +kernel) (by decide +kernel) hok⟩

end Pipeline

end NodeLogs
