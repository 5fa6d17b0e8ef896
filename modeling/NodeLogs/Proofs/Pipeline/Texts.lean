import NodeLogs.Proofs.Pipeline.Reference

/-! Runs that are given what their logs hold. No log changes while a run is at work, so that
it can be said beforehand what the run will read. Given that, a run does the same without
reading, on the same disks but for what is known of reads to come. -/

namespace NodeLogs

namespace Disk

/-- A disk on which nothing is known of reads to come. -/
def blind (disk : Disk) : Disk :=
  { disk with faults := { disk.faults with reads := [] } }

theorem blind_read (disk : Disk) (h : Handle) (limit : Nat) :
    (disk.read h limit).1.blind = disk.blind := by
  obtain ⟨reads, hr⟩ := disk.read_disk h limit
  rw [hr]
  rfl

/-- Calls other than reads do not depend on reads to come. -/
theorem answer_blind (disk : Disk) {c : Call} (hc : ∀ h limit, c ≠ .read h limit) :
    disk.blind.answer c = ((disk.answer c).1.blind, (disk.answer c).2) := by
  cases c with
  | isDir | isFile | list | openRead => rfl
  | read h limit => exact absurd rfl (hc h limit)
  | makeDir p =>
    show disk.blind.makeDir p = ((disk.makeDir p).1.blind, (disk.makeDir p).2)
    have hloc : disk.blind.locate false (withoutSlashes p) = disk.locate false (withoutSlashes p) :=
      rfl
    unfold makeDir
    rw [hloc]
    rcases disk.locate false (withoutSlashes p) with e | place | ⟨dir, name⟩ <;> rfl
  | create p =>
    show disk.blind.create p = ((disk.create p).1.blind, (disk.create p).2)
    have hloc (follow : Bool) (q : Path) : disk.blind.locate follow q = disk.locate follow q := rfl
    have hroot : disk.blind.root = disk.root := rfl
    unfold create
    rw [hloc, hloc, hroot]
    split
    · rcases disk.locate false (withoutSlashes p) with e | place | ⟨dir, name⟩ <;> rfl
    · rcases disk.locate true p with e | place | ⟨dir, name⟩
      · rfl
      · dsimp only
        rcases disk.root.at? place with _ | (_ | _ | _ | _) <;> rfl
      · rfl
  | write h bs =>
    show disk.blind.write h bs = ((disk.write h bs).1.blind, (disk.write h bs).2)
    have hroot : disk.blind.root = disk.root := rfl
    have hwrites : disk.blind.faults.writes = disk.faults.writes := rfl
    unfold write
    rw [hroot, hwrites]
    rcases disk.root.at? h.place with _ | (_ | ⟨born, old, access⟩ | _ | (_ | _))
    case some.file =>
      dsimp only
      split
      · rcases takeFor? h.place disk.faults.writes with _ | ⟨_ | most, writes⟩ <;> rfl
      · rfl
    all_goals rfl

end Disk

/-! ### Work that is given what other work reads -/

namespace Work

variable {α β : Type}

/-- Other work does the same without what is known of reads to come. -/
structure Mirrors (disk : Disk) (w v : Work α) : Prop where
  run : v.run disk.blind = ((w.run disk).1.blind, (w.run disk).2)
  accepted : w.Accepted disk → v.Accepted disk.blind

namespace Mirrors

variable {disk : Disk} {u w v : Work α}

theorem pure (disk : Disk) (a : α) : Mirrors disk (Pure.pure a) (Pure.pure a : Work α) :=
  ⟨rfl, id⟩

/-- Work that only writes does not read. -/
theorem ofOwn {dir : Path} {Q : (Place → Prop) → α → Prop} {own : Place → Prop}
    (hw : w.WritesOwn dir Q own) (disk : Disk) : Mirrors disk w w := by
  have hcall {disk : Disk} {c : Call} {next : c.Answer → Work α}
      (hc : ∀ h limit, c ≠ .read h limit)
      (hnext : Mirrors (disk.answer c).1 (next (disk.answer c).2) (next (disk.answer c).2)) :
      Mirrors disk (call c next) (call c next) := by
    have hblind := disk.answer_blind hc
    refine ⟨?_, fun h => ?_⟩
    · rw [Work.run, Work.run, hblind]
      exact hnext.run
    · obtain ⟨hfirst, hrest⟩ := accepted_call.mp h
      refine accepted_call.mpr ⟨?_, ?_⟩
      · cases c with
        | write handle bs =>
          show Written.refusal (disk.blind.answer (.write handle bs)).2 = none
          rw [hblind]
          exact hfirst
        | isDir | isFile | list | makeDir | create | openRead | read => trivial
      · rw [hblind]
        exact hnext.accepted hrest
  induction hw generalizing disk with
  | done => exact .pure _ _
  | create x _ _ ihok ihfail =>
    refine hcall nofun ?_
    dsimp only [Disk.answer]
    cases (disk.create (x.path dir)).2 with
    | error e => exact ihfail e _
    | ok h => exact ihok h _
  | write _ _ ih => exact hcall nofun (ih disk _)

theorem bind {f g : α → Work β} (h : Mirrors disk w v)
    (hfg : Mirrors (w.run disk).1 (f (w.run disk).2) (g (w.run disk).2)) :
    Mirrors disk (w >>= f) (v >>= g) := by
  refine ⟨?_, fun hok => ?_⟩
  · rw [run_bind, run_bind, h.run]
    exact hfg.run
  · obtain ⟨hfirst, hrest⟩ := accepted_bind.mp hok
    refine accepted_bind.mpr ⟨h.accepted hfirst, ?_⟩
    rw [h.run]
    exact hfg.accepted hrest

/-- A call that only reads can be left out. -/
theorem after {c : Call} {f : c.Answer → Work α} (hc : (disk.answer c).1.blind = disk.blind)
    (h : Mirrors (disk.answer c).1 (f (disk.answer c).2) v) : Mirrors disk (ask c >>= f) v := by
  refine ⟨?_, fun hok => ?_⟩
  · rw [← hc, run_bind]
    exact h.run
  · rw [← hc]
    exact h.accepted (accepted_bind.mp hok).2

theorem goesOn {later : Disk} (hu : GoesOn disk u later w) (h : Mirrors later w v) :
    Mirrors disk u v := by
  cases hu with
  | atOnce => exact h
  | read handle limit f => exact .after (disk.blind_read handle limit) h

/-- So can looks. -/
theorem alike (hu : Alike disk u w) (h : Mirrors disk w v) : Mirrors disk u v :=
  ⟨hu.run ▸ h.run, fun hok => h.accepted (hu.accepted.mp hok)⟩

end Mirrors

end Work

/-! ### Logs that are given -/

/-- What a log holds, or why it cannot be opened. -/
def Disk.text (disk : Disk) (file : LogFile) : Except OsError (Bytes × Access) :=
  match disk.openRead file.path with
  | .error e => .error e
  | .ok (h, _) =>
    match disk.root.at? h.place with
    | some (.file _ bytes access) => .ok (bytes, access)
    | _ => .ok ([], .normal)

namespace Selection

/-- Takes in lines of a log; what comes behind them can be read or not. -/
def takeEach (selection : Selection) (file : LogFile) (access : Access) :
    List Bytes → Progress → Work Progress
  | [], p => pure (if access = .broken then p.tell (.stoppedReading file.path .inputOutput) else p)
  | line :: lines, p => do
    let p ← selection.takeLine file line p
    if p.isOver then return p else takeEach selection file access lines p

/-- Takes in a log that is given. -/
def takeText (selection : Selection) (file : LogFile) (text : Except OsError (Bytes × Access))
    (p : Progress) : Work Progress :=
  match text with
  | .error e => pure (p.tell (.skippedLog file.path e))
  | .ok (bytes, access) => selection.takeEach file access (linesOf access bytes) p

section Own

variable {dir : Path} {own : Place → Prop} {p : Progress} (selection : Selection) (file : LogFile)

theorem takeEach_own (hp : p.writer.KeepsTo dir own) (access : Access) (lines : List Bytes) :
    (selection.takeEach file access lines p).WritesOwn dir
      (fun own p => p.writer.KeepsTo dir own) own := by
  induction lines generalizing p own with
  | nil =>
    refine .pure ?_
    split <;> exact hp
  | cons line lines ih =>
    refine (takeLine_own hp selection file line).bind fun own' p' _ hp' => ?_
    split
    · exact .pure hp'
    · exact ih hp'

theorem takeText_own (hp : p.writer.KeepsTo dir own) (text : Except OsError (Bytes × Access)) :
    (selection.takeText file text p).WritesOwn dir (fun own p => p.writer.KeepsTo dir own) own := by
  cases text with
  | error e => exact .pure hp
  | ok text => exact selection.takeEach_own file hp text.2 _

end Own

variable {selection : Selection} {file : LogFile} {dir : Path} {disk : Disk} {p : Progress}

/-- An open log comes in as the lines that are left of it. -/
theorem takeLines_mirrors (steps : Nat) (h : Handle) (pending : Bytes) {bytes : Bytes}
    {access : Access} (hsteps : 2 * (bytes.length - h.offset) + pending.length < steps)
    (hlog : isLogPlace h.place) (hplain : disk.Plain) (hp : p.writer.KeepsTo dir Outlet.At)
    (hfile : disk.root.at? h.place = some (.file h.born bytes access)) :
    Work.Mirrors disk (selection.takeLines file steps h pending p)
      (selection.takeEach file access (linesOf access (pending ++ bytes.drop h.offset)) p) := by
  induction steps generalizing disk h pending p with
  | zero => cases hsteps
  | succ steps ih =>
    obtain ⟨later, w, hgoes, hnext⟩ := selection.takeLines_next file hsteps hfile p
    obtain ⟨hplain, hfile⟩ : later.Plain ∧
        later.root.at? h.place = some (.file h.born bytes access) := by
      obtain ⟨reads, rfl⟩ := hgoes.later_eq
      exact ⟨⟨hplain.cwd, hplain.tree⟩, hfile⟩
    refine .goesOn hgoes ?_
    cases hnext with
    | @line line rest hlines hrest =>
      rw [hlines, takeEach]
      refine (Work.Mirrors.ofOwn (takeLine_own hp selection file line) _).bind ?_
      -- The line goes to output files, so that the log stays the file that it is.
      let b := later.outputBounds dir
      obtain ⟨hp', hplain', hsame⟩ := (b.admits_takeLine hp selection file line).run
        (fun _ _ => b.keeps) ⟨hplain, .refl _⟩
      split
      · exact .pure _ _
      · exact ih h rest hrest hlog hplain' hp' ((hsame.files _ hlog _ _ _).mpr hfile)
    | more hleft hrest =>
      rw [← hleft]
      exact ih _ _ hrest hlog hplain hp hfile
    | ended hlines =>
      rw [hlines, takeEach]
      exact .pure _ _

/-- A log that was found on another disk comes in as what it holds there. -/
theorem takeLog_mirrors {first : Disk} (hfirst : first.Plain) {q : Path} {place : Place}
    (hq : first.LeadsTo q place) {n : Node} (hn : first.root.at? place = some n) (hdir : n.isDir)
    {depth : Nat} (hfile : file ∈ logsAt depth q n) (hsame : first.SameLogs disk)
    (hplain : disk.Plain) (hp : p.writer.KeepsTo dir Outlet.At) :
    Work.Mirrors disk (selection.takeLog file p) (selection.takeText file (first.text file) p) := by
  obtain ⟨r, born, bytes, access, hlog, hloc, hloc', hold, hnew⟩ :=
    hsame.exists_file hfirst hplain hq hn hdir hfile
  unfold takeLog
  refine .after rfl ?_
  dsimp only [Disk.answer]
  rw [Disk.text, Disk.openRead_at hloc hold, Disk.openRead_at hloc' hnew]
  by_cases hlocked : access = .locked
  · simp only [if_pos hlocked]
    exact .pure _ _
  · simp only [if_neg hlocked, hold]
    exact takeLines_mirrors (stepLimit bytes.length) ⟨r, born, 0⟩ []
      (by simp [stepLimit, wordLimit]) hlog hplain hp hnew

end Selection

namespace Walk

/-- The walk that is given what the logs on a disk hold. -/
abbrev takeTexts (selection : Selection) (first : Disk) : Visitor Progress :=
  ⟨fun file => selection.takeText file (first.text file), Progress.isOver⟩

variable {selection : Selection} {dir : Path} {p : Progress}

theorem visitAll_own {own : Place → Prop} (hp : p.writer.KeepsTo dir own) (first : Disk)
    (files : List LogFile) : (visitAll (takeTexts selection first) files p).WritesOwn dir
      (fun own p => p.writer.KeepsTo dir own) own := by
  induction files generalizing p own with
  | nil => exact .pure hp
  | cons file files ih =>
    unfold visitAll
    split
    · exact .pure hp
    · exact (selection.takeText_own file hp _).bind fun own' p' _ hp' => ih hp'

/-- Visits to logs that were found on another disk take in what the logs hold there. -/
theorem visitAll_mirrors {first : Disk} (hfirst : first.Plain) {q : Path} {place : Place}
    (hq : first.LeadsTo q place) {n : Node} (hn : first.root.at? place = some n) (hdir : n.isDir)
    {depth : Nat} {files : List LogFile} (hfiles : ∀ file ∈ files, file ∈ logsAt depth q n)
    {disk : Disk} (hsame : first.SameLogs disk) (hplain : disk.Plain)
    (hp : p.writer.KeepsTo dir Outlet.At) :
    Work.Mirrors disk (visitAll (takeLogs selection) files p)
      (visitAll (takeTexts selection first) files p) := by
  induction files generalizing disk p with
  | nil => exact .pure _ _
  | cons file files ih =>
    obtain ⟨hfile, hrest⟩ := List.forall_mem_cons.mp hfiles
    unfold visitAll
    split
    · exact .pure _ _
    next hover =>
      refine (Selection.takeLog_mirrors hfirst hq hn hdir hfile hsame hplain hp).bind ?_
      obtain ⟨⟨hplain', hp'⟩, hlogs⟩ :=
        (steady_takeLogs selection dir).visit disk p file ⟨hplain, hp⟩ (by simpa using hover)
      have hu := (selection.takeLog file p).run_updates hplain.cwd
      exact ih hrest (hsame.trans ⟨hlogs, _, hu⟩) hplain' hp'

end Walk

namespace Pipeline

variable (pl : Pipeline) (run : Run)

/-- Fills the outputs of a run, with a way to take its logs in. The directory is there. -/
def fill (bring : Progress → Work Progress) : Work (Outcome × List Notice) := do
  match ← Writer.createIn (run.outputDir pl.outSubdir) run.name with
  | .error e => return (pl.outcome run {} (some (.sink e)), [])
  | .ok writer =>
    let p ← bring { writer }
    match p.failure with
    | some e =>
      p.writer.release
      return (pl.outcome run p.counts (some (.sink e)), p.notices.reverse)
    | none =>
      let failure ← p.writer.finish
      return (pl.outcome run p.counts (failure.map .sink), p.notices.reverse)

/-- Fills them from the logs below the run. -/
def fillWalking : Work (Outcome × List Notice) :=
  pl.fill run (Walk.walk (Walk.takeLogs pl.selection) pl.reach run.path)

theorem filterRun_eq : pl.filterRun run = Work.makeAllDirs (run.outputDir pl.outSubdir) >>= fun
    | .error e =>
      pure (pl.outcome run {} (some (.sink ⟨.createDir, run.outputDir pl.outSubdir, e⟩)), [])
    | .ok () => pl.fillWalking run := by
  unfold filterRun
  rw [Writer.create_eq, bind_assoc]
  congr 1
  funext made
  cases made <;> rfl

section Directory

variable {pl run} {disk made : Disk}

theorem filterRun_unmade {e : OsError}
    (h : (Work.makeAllDirs (run.outputDir pl.outSubdir)).run disk = (made, .error e)) :
    (pl.filterRun run).run disk =
      (made, pl.outcome run {} (some (.sink ⟨.createDir, run.outputDir pl.outSubdir, e⟩)), []) := by
  rw [filterRun_eq, Work.run_bind, h]
  rfl

variable (h : (Work.makeAllDirs (run.outputDir pl.outSubdir)).run disk = (made, .ok ()))
include h

theorem filterRun_made : (pl.filterRun run).run disk = (pl.fillWalking run).run made := by
  rw [filterRun_eq, Work.run_bind, h]

theorem accepted_made (hok : (pl.filterRun run).Accepted disk) :
    (pl.fillWalking run).Accepted made := by
  rw [filterRun_eq] at hok
  have hrest := (Work.accepted_bind.mp hok).2
  rwa [h] at hrest

end Directory

/-- Fills them from what the logs hold on a disk. -/
def fillFrom (first : Disk) : Work (Outcome × List Notice) :=
  pl.fill run (Walk.visitAll (Walk.takeTexts pl.selection first) (pl.logFiles run first))

theorem fillFrom_own (first : Disk) (own : Place → Prop) :
    (pl.fillFrom run first).WritesOwn (run.outputDir pl.outSubdir) (fun _ _ => True) own := by
  refine (Writer.createIn_own _ run.name).bind fun own' r _ hr => ?_
  cases r with
  | error e => exact .pure trivial
  | ok writer =>
    have hwriter : (Progress.writer { writer }).KeepsTo (run.outputDir pl.outSubdir) own' := hr
    refine (Walk.visitAll_own hwriter first _).bind fun own'' p _ hp => ?_
    cases p.failure with
    | some e => exact (Writer.release_own hp).bind fun _ _ _ _ => .pure trivial
    | none => exact (Writer.finish_own hp).bind fun _ _ _ _ => .pure trivial

variable {pl run}

/-- On a disk with the same logs, the run does what it does if it is given what they hold. -/
theorem fillWalking_mirrors {first disk : Disk} (hfirst : first.Plain) (hdir : first.isDir run.path)
    (hsame : first.SameLogs disk) (hplain : disk.Plain) :
    Work.Mirrors disk (pl.fillWalking run) (pl.fillFrom run first) := by
  let b := disk.outputBounds (run.outputDir pl.outSubdir)
  have hcreate := @Writer.createIn_own b.own (run.outputDir pl.outSubdir) run.name
  refine (Work.Mirrors.ofOwn hcreate disk).bind ?_
  obtain ⟨hwriter, hplain', hsame'⟩ := (b.admits_own hcreate fun _ => id).run
    (fun _ _ => b.keeps) ⟨hplain, .refl _⟩
  revert hwriter hplain' hsame'
  generalize (Writer.createIn (run.outputDir pl.outSubdir) run.name).run disk = result
  obtain ⟨made, e | writer⟩ := result <;> intro hwriter hplain' hsame'
  · exact .pure _ _
  obtain ⟨own, hown, hkeeps⟩ := hwriter
  have hkeeps := Writer.KeepsTo.mono hkeeps hown
  obtain ⟨place, hloc, es, hes⟩ := (first.isDir_iff run.path).mp hdir
  have hrun := hfirst.leadsTo hloc ⟨es, hes⟩
  have halike := walk_visits hfirst hrun (hsame.trans hsame') hplain' hkeeps
  have hfiles (file : LogFile) (hfile : file ∈ pl.logFiles run first) :
      file ∈ logsAt pl.reach run.path (.dir es) := by
    rwa [logFiles, logFiles_run hfirst pl.reach hloc hes] at hfile
  have hvisits : Work.Mirrors made (Walk.visitAll (Walk.takeLogs pl.selection)
      (pl.logFiles run first) { writer }) _ := Walk.visitAll_mirrors hfirst
    hrun hes rfl hfiles (hsame.trans hsame') hplain' hkeeps
  refine (hvisits.alike halike).bind ?_
  obtain ⟨⟨-, hp⟩, -⟩ := (Walk.steady_takeLogs pl.selection (run.outputDir pl.outSubdir)).visitAll
    (pl.logFiles run first) (s := { writer }) ⟨hplain', hkeeps⟩
  rw [← halike.run] at hp
  cases (Progress.failure _) with
  | some e => exact (Work.Mirrors.ofOwn (Writer.release_own hp) _).bind (.pure _ _)
  | none => exact (Work.Mirrors.ofOwn (Writer.finish_own hp) _).bind (.pure _ _)

end Pipeline

end NodeLogs
