import NodeLogs.Pipeline.Run
import NodeLogs.Proofs.Discovery.Walk
import NodeLogs.Proofs.Output.Own
import NodeLogs.Proofs.Pipeline.Reading

/-! Bounds on what a run may do. Whatever is asked of the paths below the run's own, of
its logs and of its output files is asked by a run, and nothing else is: each part of a
run keeps to any such bounds. -/

namespace NodeLogs

/-- Bounds for runs with outputs in a directory: disks of a kind stay of this kind under
calls of a kind, and these are enough for the directory, for outputs at places of their
own, for paths of a kind, and for the logs there. -/
structure Bounds (dir : Path) where
  ok : Disk → Prop
  call : Call → Prop
  own : Place → Prop
  logs : Place → Prop
  within : Path → Prop
  keeps : ∀ {disk c}, ok disk → call c → ok (disk.answer c).1
  dirs : (Work.makeAllDirs dir).Stays ok call fun _ => True
  create : ∀ x : Outlet, call (.create (x.path dir))
  created : ∀ {disk h} {x : Outlet}, ok disk → (disk.create (x.path dir)).2 = .ok h → own h.place
  write : ∀ {h} bs, own h.place → call (.write h bs)
  isDir : ∀ {p}, within p → call (.isDir p)
  isFile : ∀ {p}, within p → call (.isFile p)
  list : ∀ {p}, within p → call (.list p)
  below : ∀ {disk p es e}, within p → ok disk → disk.list p = .ok es → e ∈ es →
    within (p.child e.1)
  openRead : ∀ {p}, within p → call (.openRead p)
  opened : ∀ {disk p h size}, within p → ok disk → disk.openRead p = .ok (h, size) → logs h.place
  read : ∀ {h} limit, logs h.place → call (.read h limit)

/-- A line that is taken in goes to files that the writer has opened. -/
theorem Selection.takeLine_own {p : Progress} {dir : Path} {own : Place → Prop}
    (hp : p.writer.KeepsTo dir own) (selection : Selection) (file : LogFile) (line : Bytes) :
    (selection.takeLine file line p).WritesOwn dir (fun own p => p.writer.KeepsTo dir own) own := by
  cases hkeep : selection.keep? line with
  | none =>
    rw [takeLine_of_dropped file hkeep]
    exact .pure hp
  | some r =>
    rw [takeLine_of_kept file hkeep]
    refine (Writer.write_own hp r file.path file.node).bind fun own' result _ hresult => ?_
    exact .pure (by rwa [Progress.wrote_writer])

namespace Bounds

variable {dir : Path} (b : Bounds dir)

/-- Work keeps to the bounds, and its result is of a kind. -/
abbrev Admits {α : Type} (Q : α → Prop) (w : Work α) : Prop :=
  w.Stays b.ok b.call Q

/-- Work that opens outputs and writes to those only is within the bounds. -/
theorem admits_own {α : Type} {Q : (Place → Prop) → α → Prop} {own : Place → Prop} {w : Work α}
    (hw : w.WritesOwn dir Q own) (hown : ∀ place, own place → b.own place) :
    b.Admits (fun a => ∃ own', (∀ place, own' place → b.own place) ∧ Q own' a) w := by
  induction hw with
  | done hQ => exact .pure ⟨_, hown, hQ⟩
  | create x _ _ ihok ihfail =>
    refine .call (b.create x) fun disk hdisk => ?_
    have hcreated {h : Handle} := @b.created disk h x hdisk
    dsimp only [Disk.answer]
    cases hr : (disk.create (x.path dir)).2 with
    | error e => exact ihfail e hown
    | ok h => exact ihok h fun place hplace => hplace.elim (· ▸ hcreated hr) (hown place)
  | write hplace _ ih => exact .call (b.write _ (hown _ hplace)) fun disk _ => ih disk hown

theorem admits_create (runName : Text) :
    b.Admits (Yields fun w => w.KeepsTo dir b.own) (Writer.create dir runName) := by
  rw [Writer.create_eq]
  refine .bind b.dirs fun made _ => ?_
  cases made with
  | error e => exact .pure trivial
  | ok u =>
    refine (b.admits_own (@Writer.createIn_own b.own dir runName) fun _ => id).mono (fun _ => id) ?_
    rintro (e | w) ⟨own, hown, hw⟩
    · trivial
    · exact Writer.KeepsTo.mono hw hown

/-! ### Logs -/

section Logs

variable {p : Progress} (hp : p.writer.KeepsTo dir b.own) (selection : Selection) (file : LogFile)
include hp

theorem admits_takeLine (line : Bytes) :
    b.Admits (fun p => p.writer.KeepsTo dir b.own) (selection.takeLine file line p) :=
  (b.admits_own (Selection.takeLine_own hp selection file line) fun _ => id).mono (fun _ => id)
    fun _ ⟨_, hown, hp'⟩ => hp'.mono hown

theorem admits_takeLines (steps : Nat) {h : Handle} (hlogs : b.logs h.place) (pending : Bytes) :
    b.Admits (fun p => p.writer.KeepsTo dir b.own) (selection.takeLines file steps h pending p) :=
  Selection.takeLines_stays b.logs (fun _ _ => id)
    (fun line _ hp => b.admits_takeLine hp selection file line) (fun _ => b.read chunkSize) steps
    hlogs pending hp

theorem admits_takeLog (hfile : b.within file.path) :
    b.Admits (fun p => p.writer.KeepsTo dir b.own) (selection.takeLog file p) := by
  refine .bind (Q := Yields fun r : Handle × Nat => b.logs r.1.place)
    (.ask (b.openRead hfile) fun disk hdisk => .intro fun r => b.opened hfile hdisk) fun r hr => ?_
  cases r with
  | error e => exact .pure hp
  | ok r => exact b.admits_takeLines hp selection file _ hr []

end Logs

theorem keeps_takeLogs (selection : Selection) :
    Walk.Keeps ⟨selection.takeLog, Progress.isOver⟩ b.ok b.call b.within
      fun p => p.writer.KeepsTo dir b.own :=
  ⟨b.isDir, b.isFile, b.list, b.below, fun hfile hp => b.admits_takeLog hp selection _ hfile⟩

end Bounds

/-! ### Runs -/

/-- A run keeps to bounds for its path and its output directory. -/
theorem Pipeline.filterRun_stays (pl : Pipeline) (run : Run)
    (b : Bounds (run.outputDir pl.outSubdir)) (hrun : b.within run.path) :
    b.Admits (fun _ => True) (pl.filterRun run) := by
  refine .bind (b.admits_create run.name) fun r hr => ?_
  cases r with
  | error e => exact .pure trivial
  | ok writer =>
    refine .bind (Walk.walk_stays (b.keeps_takeLogs pl.selection) pl.reach hrun hr) fun p hp => ?_
    cases p.failure with
    | some e => exact .bind (b.admits_own (Writer.release_own hp) fun _ => id) fun _ _ => .pure trivial
    | none => exact .bind (b.admits_own (Writer.finish_own hp) fun _ => id) fun _ _ => .pure trivial

end NodeLogs
