import NodeLogs.Proofs.Output.Blocked
import NodeLogs.Proofs.Output.Sessions
import NodeLogs.Proofs.Pipeline.InStep

/-! How far lines are taken in. Unless it is hindered by more than directories that stand in the way
of files, a run takes the lines of its logs in one after another, up to the first with an entry for
which its writer fails. All the way the writer was given the entries of these lines, and no others. -/

namespace NodeLogs

/-! ### Lines one after another -/

/-- A line and the log that it is from. -/
abbrev LogLine := LogFile × Bytes

namespace Selection

variable (selection : Selection)

/-- The entry that comes of a line, if it is kept. -/
def entry? (l : LogLine) : Option Entry :=
  (selection.keep? l.2).map (⟨·, l.1.path, l.1.node⟩)

/-- The entries that come of lines. -/
def entriesOf (ls : List LogLine) : List Entry :=
  ls.filterMap selection.entry?

theorem entriesOf_concat (ls : List LogLine) (l : LogLine) :
    selection.entriesOf (ls ++ [l]) = selection.entriesOf ls ++ (selection.entry? l).toList := by
  rw [entriesOf, List.filterMap_append]
  cases h : selection.entry? l <;> simp [entriesOf, h]

end Selection

/-- All lines of logs, one log after another. -/
def Reading.lines (readings : List Reading) : List LogLine :=
  readings.flatMap fun (file, lines) => lines.map (file, ·)

theorem Reading.lines_cons (disk : Disk) (file : LogFile) (logs : List LogFile) :
    lines ((file :: logs).filterMap disk.reading?) =
      lines (disk.reading? file).toList ++ lines (logs.filterMap disk.reading?) := by
  cases h : disk.reading? file <;> simp [lines, h]

/-- The node of a log goes by a number that fits a word. -/
theorem LogFile.node_lt {q : Path} {file : LogFile} (h : ofPath? q = some file) :
    file.node < wordLimit := by
  obtain ⟨node, hnode, rfl⟩ := Option.map_eq_some_iff.mp h
  exact NodeLog.nodeOfName?_lt hnode

/-! ### Work that is not hindered -/

namespace Work

variable {α β : Type} {disk : Disk} {files : List (Path × Handle)}

/-- What work opens for writing are regular files, different ones for different paths, and no
write is refused. -/
structure Unhindered (w : Work α) (disk : Disk) (files : List (Path × Handle)) : Prop where
  opens : ∀ c ∈ w.history disk, c.1.OpensFile c.2
  accepted : w.Accepted disk
  apart : ∀ f ∈ files ++ w.created disk, ∀ g ∈ files ++ w.created disk,
    f.2.place = g.2.place → f.1 = g.1

namespace Unhindered

variable {w : Work α} {f : α → Work β} (h : (w >>= f).Unhindered disk files)
include h

theorem left : w.Unhindered disk files where
  opens c hc := h.opens c (by simp [hc])
  accepted := (accepted_bind.mp h.accepted).1
  apart := by
    have hsub : files ++ w.created disk ⊆ files ++ (w >>= f).created disk := by
      rw [created_bind, ← List.append_assoc]
      exact List.subset_append_left ..
    exact fun opened hopened other hother => h.apart opened (hsub hopened) other (hsub hother)

theorem right :
    (f (w.run disk).2).Unhindered (w.run disk).1 (files ++ w.created disk) where
  opens c hc := h.opens c (by simp [hc])
  accepted := (accepted_bind.mp h.accepted).2
  apart := by simpa only [created_bind, ← List.append_assoc] using h.apart

theorem rest {later : Disk} {a : α} (hw : w.run disk = (later, a)) :
    (f a).Unhindered later (files ++ w.created disk) := by
  have hright := h.right
  rwa [hw] at hright

end Unhindered

end Work

/-! ### How far lines were taken in -/

namespace Pipeline

variable (pl : Pipeline) (run : Run)

/-- A writer in the output directory of a run was given the entries of these lines and no others,
and has opened these files. -/
def Wrote (taken : List LogLine) (disk : Disk) (w : Writer) (files : List (Path × Handle)) : Prop :=
  ∃ calls, Session.Intact (run.outputDir pl.outSubdir) run.name ⟨disk, w, files, calls⟩ ∧
    Session.kept ⟨disk, w, files, calls⟩ = pl.selection.entriesOf taken

/-- These lines were taken in. -/
structure Going (taken : List LogLine) (disk : Disk) (files : List (Path × Handle))
    (p : Progress) : Prop where
  wrote : pl.Wrote run taken disk p.writer files
  counts : p.counts = ⟨taken.length, (pl.selection.entriesOf taken).length⟩
  failure : p.failure = none

/-- These lines were taken in, and output has stopped at the next, with an entry for which a
directory stands in the way. -/
structure Stopped (taken : List LogLine) (e : Entry) (disk : Disk) (files : List (Path × Handle))
    (p : Progress) : Prop where
  wrote : pl.Wrote run taken disk p.writer files
  counts : p.counts = ⟨taken.length + 1, (pl.selection.entriesOf taken).length⟩
  blocked : ∃ form,
    p.failure = some ⟨.openSink, Outlet.path (run.outputDir pl.outSubdir) ⟨.node e.node, form⟩,
      .isADirectory⟩ ∧
    disk.isDir (Outlet.path (run.outputDir pl.outSubdir) ⟨.node e.node, form⟩)

/-- Behind the lines that were taken in before, all of these were, or those up to one at which
output has stopped. -/
inductive Took (taken ls : List LogLine) (disk : Disk) (files : List (Path × Handle))
    (p : Progress) : Prop
  | all (h : pl.Going run (taken ++ ls) disk files p)
  | upTo {before l after e} (hls : ls = before ++ l :: after) (he : pl.selection.entry? l = some e)
      (h : pl.Stopped run (taken ++ before) e disk files p)

/-- Unless it is hindered, work takes these lines in. -/
def TakesIn (w : Work Progress) (disk : Disk) (files : List (Path × Handle))
    (taken ls : List LogLine) : Prop :=
  w.Unhindered disk files →
    pl.Took run taken ls (w.run disk).1 (files ++ w.created disk) (w.run disk).2

variable {pl run} {disk : Disk} {files : List (Path × Handle)} {taken ls : List LogLine}
  {p : Progress}

/-- Reading changes nothing but what devices do next. -/
theorem Going.withFaults (h : pl.Going run taken disk files p) (faults : Faults) :
    pl.Going run taken { disk with faults } files p := by
  obtain ⟨calls, hintact, hkept⟩ := h.wrote
  exact { h with wrote := ⟨calls, hintact.meanwhile hintact.cwd fun f hf =>
    ⟨hintact.leads f hf, rfl⟩, hkept⟩ }

theorem Going.tell (h : pl.Going run taken disk files p) (n : Notice) :
    pl.Going run taken disk files (p.tell n) :=
  { h with }

theorem Going.isOver (h : pl.Going run taken disk files p) : p.isOver = false := by
  rw [Progress.isOver, h.failure]
  rfl

theorem Stopped.isOver {e : Entry} (h : pl.Stopped run taken e disk files p) : p.isOver = true := by
  obtain ⟨form, hfailure, -⟩ := h.blocked
  rw [Progress.isOver, hfailure]
  rfl

namespace TakesIn

theorem pure (h : pl.Going run taken disk files p) :
    pl.TakesIn run (Pure.pure p) disk files taken [] := by
  intro _
  exact .all (by simpa using h)

/-- Lines come in after others, unless output has stopped at one of these. -/
theorem bind {w : Work Progress} {f : Progress → Work Progress} {more : List LogLine}
    (hw : pl.TakesIn run w disk files taken ls)
    (hf : pl.Going run (taken ++ ls) (w.run disk).1 (files ++ w.created disk) (w.run disk).2 →
      pl.TakesIn run (f (w.run disk).2) (w.run disk).1 (files ++ w.created disk) (taken ++ ls) more)
    (hover : (w.run disk).2.isOver = true → f (w.run disk).2 = Pure.pure (w.run disk).2) :
    pl.TakesIn run (w >>= f) disk files taken (ls ++ more) := by
  intro h
  rw [Work.run_bind, Work.created_bind, ← List.append_assoc]
  cases hw h.left with
  | all hgoing =>
    cases hf hgoing h.right with
    | all hgoing' => exact .all (by simpa using hgoing')
    | upTo hmore he hstopped =>
      exact .upTo (by rw [hmore, ← List.append_assoc]) he (by simpa using hstopped)
  | upTo hls he hstopped =>
    rw [hover hstopped.isOver]
    exact .upTo (by rw [hls, List.append_assoc, List.cons_append]) he (by simpa using hstopped)

/-- Work may make a call first that opens nothing for writing. -/
theorem after {c : Call} {f : c.Answer → Work Progress} (hcreated : (Work.ask c).created disk = [])
    (hf : pl.TakesIn run (f (disk.answer c).2) (disk.answer c).1 files taken ls) :
    pl.TakesIn run (Work.ask c >>= f) disk files taken ls := by
  intro h
  have hright := h.right
  rw [hcreated, List.append_nil] at hright
  rw [Work.run_bind, Work.created_bind, hcreated, List.nil_append]
  exact hf hright

theorem goesOn {later : Disk} {u w : Work Progress} (h : Work.GoesOn disk u later w)
    (hw : pl.TakesIn run w later files taken ls) : pl.TakesIn run u disk files taken ls := by
  cases h with
  | atOnce => exact hw
  | read handle limit f => exact .after rfl hw

end TakesIn

/-! ### Taking lines in -/

/-- The entry of a line is written, or output fails and nothing is. -/
theorem Wrote.write {w : Writer} (h : pl.Wrote run taken disk w files) {l : LogLine} {e : Entry}
    (he : pl.selection.entry? l = some e)
    (hun : (w.write e.record e.source e.node).Unhindered disk files) :
    let result := (w.write e.record e.source e.node).run disk
    pl.Wrote run (if result.2.2 = none then taken ++ [l] else taken) result.1 result.2.1
      (files ++ (w.write e.record e.source e.node).created disk) := by
  obtain ⟨calls, hintact, hkept⟩ := h
  refine ⟨_, hintact.write (e := e) ⟨hun.opens, hun.accepted⟩ hun.apart, ?_⟩
  refine (Session.kept_write _ e).trans ?_
  rw [hkept]
  dsimp only
  split <;> simp [Selection.entriesOf_concat, he]

section Lines

variable {file : LogFile} {place : Place} (hdir : disk.LeadsTo (run.outputDir pl.outSubdir) place)
  (hnode : file.node < wordLimit)
include hdir hnode

/-- A line is one more, unless output stops at it. -/
theorem takeLine_takesIn (hplain : disk.Plain) (h : pl.Going run taken disk files p) (line : Bytes) :
    pl.TakesIn run (pl.selection.takeLine file line p) disk files taken [(file, line)] := by
  cases hkeep : pl.selection.keep? line with
  | none =>
    rw [Selection.takeLine_of_dropped file hkeep]
    have hnone : pl.selection.entriesOf (taken ++ [(file, line)]) = pl.selection.entriesOf taken := by
      simp [Selection.entriesOf_concat, Selection.entry?, hkeep]
    intro _
    refine .all ⟨?_, ?_, h.failure⟩
    · obtain ⟨calls, hintact, hkept⟩ := h.wrote
      exact ⟨calls, by simpa using hintact, hkept.trans hnone.symm⟩
    · rw [Work.run_pure, h.counts, hnone, List.length_append]
      rfl
  | some r =>
    rw [Selection.takeLine_of_kept file hkeep]
    have he : pl.selection.entry? (file, line) = some ⟨r, file.path, file.node⟩ := by
      simp [Selection.entry?, hkeep]
    intro hun
    have hwriter : p.writer.dir = run.outputDir pl.outSubdir := by
      obtain ⟨calls, hintact, -⟩ := h.wrote
      exact hintact.dir_eq
    have hwrote := h.wrote.write he hun.left
    have herror := @Writer.write_error p.writer disk place hplain (hwriter ▸ hdir)
      ⟨r, file.path, file.node⟩ hnode hun.left.accepted
    rw [Work.run_bind, Work.created_bind, Work.run_pure]
    rcases hrun : (p.writer.write r file.path file.node).run disk with
      ⟨disk', writer, _ | failure⟩
    all_goals
      rw [hrun] at hwrote herror
      dsimp only [Progress.wrote]
    · refine .all ⟨by simpa using hwrote, ?_, h.failure⟩
      rw [h.counts, Selection.entriesOf_concat, he, List.length_append, List.length_append]
      rfl
    · have hls : [(file, line)] = [] ++ (file, line) :: [] := rfl
      refine .upTo hls he ⟨by simpa using hwrote, ?_, ?_⟩
      · rw [List.append_nil, h.counts]
        rfl
      · obtain ⟨form, rfl, hdir⟩ := herror rfl
        exact ⟨form, by rw [hwriter], hwriter ▸ hdir⟩

/-- An open log comes in as the lines that are left of it. -/
theorem takeLines_takesIn (steps : Nat) (h : Handle) (pending : Bytes) {bytes : Bytes}
    {access : Access} (hsteps : 2 * (bytes.length - h.offset) + pending.length < steps)
    (hlog : isLogPlace h.place) (hplain : disk.Plain)
    (hp : p.writer.KeepsTo (run.outputDir pl.outSubdir) Outlet.At)
    (hfile : disk.root.at? h.place = some (.file h.born bytes access))
    (hgoing : pl.Going run taken disk files p) :
    pl.TakesIn run (pl.selection.takeLines file steps h pending p) disk files taken
      ((linesOf access (pending ++ bytes.drop h.offset)).map (file, ·)) := by
  induction steps generalizing disk h pending p files taken with
  | zero => cases hsteps
  | succ steps ih =>
    obtain ⟨later, w, hgoes, hnext⟩ := pl.selection.takeLines_next file hsteps hfile p
    obtain ⟨hplain, hdir, hfile, hgoing⟩ : later.Plain ∧
        later.LeadsTo (run.outputDir pl.outSubdir) place ∧
        later.root.at? h.place = some (.file h.born bytes access) ∧
        pl.Going run taken later files p := by
      obtain ⟨reads, rfl⟩ := hgoes.later_eq
      exact ⟨⟨hplain.cwd, hplain.tree⟩, ⟨hdir.no_zero, hdir.go_eq, hdir.hasDir⟩, hfile,
        hgoing.withFaults _⟩
    refine .goesOn hgoes ?_
    cases hnext with
    | @line line rest hlines hrest =>
      rw [hlines, List.map_cons, ← List.singleton_append]
      refine (takeLine_takesIn hdir hnode hplain hgoing line).bind (fun hgoing' => ?_)
        fun hover => if_pos hover
      rw [hgoing'.isOver]
      -- The line goes to output files, so that the log stays the file that it is.
      let b := later.outputBounds (run.outputDir pl.outSubdir)
      obtain ⟨hp', hplain', hsame⟩ := (b.admits_takeLine hp pl.selection file line).run
        (fun _ _ => b.keeps) ⟨hplain, .refl _⟩
      exact ih (hdir.keeps hplain hplain' (Work.run_updates _ hplain.cwd)) h rest hrest hlog hplain'
        hp' ((hsame.files _ hlog _ _ _).mpr hfile) hgoing'
    | more hleft hrest =>
      rw [← hleft]
      exact ih hdir _ _ hrest hlog hplain hp hfile hgoing
    | ended hlines =>
      rw [hlines, List.map_nil]
      refine .pure ?_
      split
      · exact hgoing.tell _
      · exact hgoing

end Lines

section Logs

variable {first : Disk} (hfirst : first.Plain) {q : Path} {start : Place}
  (hq : first.LeadsTo q start) {n : Node} (hn : first.root.at? start = some n) (hisDir : n.isDir)
  {depth : Nat} {place : Place}
include hfirst hq hn hisDir

/-- A log that was found on another disk comes in with the lines that it has there. -/
theorem takeLog_takesIn {file : LogFile} (hfile : file ∈ logsAt depth q n)
    (hsame : first.SameLogs disk) (hdir : disk.LeadsTo (run.outputDir pl.outSubdir) place)
    (hplain : disk.Plain) (hp : p.writer.KeepsTo (run.outputDir pl.outSubdir) Outlet.At)
    (hgoing : pl.Going run taken disk files p) :
    pl.TakesIn run (pl.selection.takeLog file p) disk files taken
      (Reading.lines (first.reading? file).toList) := by
  obtain ⟨r, born, bytes, access, hlog, hloc, hloc', hold, hnew⟩ :=
    hsame.exists_file hfirst hplain hq hn hisDir hfile
  obtain ⟨-, -, hof, -⟩ := exists_of_mem_logsAt (Node.isPlain_at? hfirst.tree hn) hisDir hfile
  unfold Selection.takeLog
  refine .after rfl ?_
  dsimp only [Disk.answer]
  rw [Disk.reading?, Disk.openRead_at hloc hold, Disk.openRead_at hloc' hnew]
  by_cases hlocked : access = .locked
  · simp only [if_pos hlocked]
    exact .pure (hgoing.tell _)
  · have hlines := takeLines_takesIn hdir (LogFile.node_lt hof) (Selection.stepLimit bytes.length)
      ⟨r, born, 0⟩ [] (by simp [Selection.stepLimit, wordLimit]) hlog hplain hp hnew hgoing
    simpa [hlocked, Except.toOption, Reading.lines, Disk.linesAt, hold] using hlines

/-- Logs come in one after another. -/
theorem visitAll_takesIn {logs : List LogFile} (hlogs : ∀ file ∈ logs, file ∈ logsAt depth q n)
    (hsame : first.SameLogs disk) (hdir : disk.LeadsTo (run.outputDir pl.outSubdir) place)
    (hplain : disk.Plain) (hp : p.writer.KeepsTo (run.outputDir pl.outSubdir) Outlet.At)
    (hgoing : pl.Going run taken disk files p) :
    pl.TakesIn run (Walk.visitAll (Walk.takeLogs pl.selection) logs p) disk files taken
      (Reading.lines (logs.filterMap first.reading?)) := by
  induction logs generalizing disk p files taken with
  | nil => exact .pure hgoing
  | cons file logs ih =>
    obtain ⟨hfile, hrest⟩ := List.forall_mem_cons.mp hlogs
    unfold Walk.visitAll
    rw [if_neg (by simp [hgoing.isOver]), Reading.lines_cons]
    refine (takeLog_takesIn hfirst hq hn hisDir hfile hsame hdir hplain hp hgoing).bind
      (fun hgoing' => ?_) fun hover => Walk.visitAll_over hover logs
    obtain ⟨⟨hplain', hp'⟩, hfiles⟩ :=
      (Walk.steady_takeLogs pl.selection (run.outputDir pl.outSubdir)).visit disk p file
        ⟨hplain, hp⟩ hgoing.isOver
    have hu := (pl.selection.takeLog file p).run_updates hplain.cwd
    exact ih hrest (hsame.trans ⟨hfiles, _, hu⟩) (hdir.keeps hplain hplain' hu) hplain' hp' hgoing'

end Logs

end Pipeline

end NodeLogs
