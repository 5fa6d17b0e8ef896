import NodeLogs.Proofs.Discovery.Walk
import NodeLogs.Proofs.Pipeline.Lines

/-! What becomes of the logs on a walk. The logs come in one after another, as they
are opened, each with all its lines; what is below a directory may change meanwhile. -/

namespace NodeLogs

/-- A log and its lines. -/
abbrev Reading := LogFile × List Bytes

namespace Reading

/-- How many lines logs have together. -/
def lineCount (readings : List Reading) : Nat :=
  (readings.flatMap Prod.snd).length

/-- The entries that come of logs. -/
def entries (selection : Selection) (readings : List Reading) : List Entry :=
  readings.flatMap fun (file, lines) => selection.entries file lines

theorem lineCount_append (first second : List Reading) :
    lineCount (first ++ second) = lineCount first + lineCount second := by
  simp [lineCount]

theorem entries_append (selection : Selection) (first second : List Reading) :
    entries selection (first ++ second) = entries selection first ++ entries selection second :=
  List.flatMap_append

end Reading

namespace Disk

/-- What logs that were opened have for lines. -/
def readings (disk : Disk) (opened : List (Path × Handle)) : List Reading :=
  opened.filterMap fun (p, h) => (LogFile.ofPath? p).map (·, disk.linesAt h.place)

theorem readings_append (disk : Disk) (first second : List (Path × Handle)) :
    disk.readings (first ++ second) = disk.readings first ++ disk.readings second :=
  List.filterMap_append

/-- A regular file is opened for reading unless it is locked. -/
theorem openRead_at {disk : Disk} {p : Path} {place : Place} {born : Nat} {bytes : Bytes}
    {access : Access} (hloc : disk.locate true p = .ok (.found place))
    (hn : disk.root.at? place = some (.file born bytes access)) :
    disk.openRead p = if access = .locked then .error .permissionDenied
      else .ok (⟨place, born, 0⟩, bytes.length) := by
  unfold openRead
  cases access <;> simp [hloc, hn]

theorem openRead_file {disk : Disk} {p : Path} (h : disk.isFile p = true) :
    ∃ place born bytes access, disk.root.at? place = some (.file born bytes access) ∧
      disk.locate true p = .ok (.found place) ∧
      disk.openRead p = if access = .locked then .error .permissionDenied
        else .ok (⟨place, born, 0⟩, bytes.length) := by
  unfold isFile node at h
  cases hloc : disk.locate true p with
  | error e => simp [hloc] at h
  | ok spot =>
    cases spot with
    | free place name => simp [hloc] at h
    | found place =>
      simp only [hloc] at h
      cases hn : disk.root.at? place with
      | none => simp [hn] at h
      | some n =>
        cases n with
        | file born bytes access => exact ⟨place, born, bytes, access, hn, rfl, openRead_at hloc hn⟩
        | dir | link | device => simp [hn, Node.isFile] at h

end Disk

/-! ### Work that takes logs in -/

namespace Work

/-- Unless output fails, work brings in the lines of the logs that it opens. -/
def Reads (s : Setup) (selection : Selection) (w : Work Progress) (disk : Disk)
    (files : List (Path × Handle)) (scanned : Nat) (es : List Entry) : Prop :=
  (∀ f ∈ w.opened disk, s.logs f.2.place) →
    w.Brings s disk files (scanned + Reading.lineCount (s.disk.readings (w.opened disk)))
      (es ++ Reading.entries selection (s.disk.readings (w.opened disk)))

namespace Reads

variable {s : Setup} {selection : Selection} {disk : Disk} {files : List (Path × Handle)}
  {scanned : Nat} {es : List Entry}

theorem pure {p : Progress} (h : Kept s disk p files scanned es) :
    (Pure.pure p : Work Progress).Reads s selection disk files scanned es := by
  intro _
  simpa [Disk.readings, Reading.lineCount, Reading.entries] using Brings.pure h

theorem bind {w : Work Progress} {f : Progress → Work Progress}
    (hw : w.Reads s selection disk files scanned es)
    (hf : ∀ files scanned es, Kept s (w.run disk).1 (w.run disk).2 files scanned es →
      (f (w.run disk).2).Reads s selection (w.run disk).1 files scanned es)
    (hfailed : (w.run disk).2.failure ≠ none →
      ((f (w.run disk).2).run (w.run disk).1).2.failure ≠ none) :
    (w >>= f).Reads s selection disk files scanned es := by
  intro hlogs
  rw [opened_bind] at hlogs ⊢
  rw [Disk.readings_append, Reading.lineCount_append, Reading.entries_append, ← Nat.add_assoc,
    ← List.append_assoc]
  exact (hw fun g hg => hlogs g (List.mem_append_left _ hg)).bind
    (fun hkept => hf _ _ _ hkept fun g hg => hlogs g (List.mem_append_right _ hg)) hfailed

/-- Work may look at the disk first. -/
theorem afterLook {c : Call} {f : c.Answer → Work Progress} (hlook : c.isLook)
    (hf : (f (disk.answer c).2).Reads s selection disk files scanned es) :
    (Work.ask c >>= f).Reads s selection disk files scanned es := by
  intro hlogs
  have hdisk := disk.answer_look hlook
  rw [opened_bind, opened_look hlook, List.nil_append, run_ask, hdisk] at hlogs ⊢
  exact Brings.afterRead disk.faults hdisk (created_look hlook disk) (hf hlogs)

end Reads

end Work

namespace Selection

variable {selection : Selection} {s : Setup} {disk : Disk} {p : Progress}
  {files : List (Path × Handle)} {scanned : Nat} {es : List Entry}

/-- The log is opened if it can be, and nothing else is opened for reading. -/
theorem takeLog_opened (selection : Selection) (file : LogFile) (p : Progress) (disk : Disk) :
    (selection.takeLog file p).opened disk =
      ((disk.openRead file.path).toOption.map fun r => (file.path, r.1)).toList := by
  unfold takeLog
  rw [Work.opened_bind, Work.run_openRead]
  cases h : disk.openRead file.path with
  | error e => simp [Work.opened, h, Except.toOption]
  | ok r =>
    have := (selection.takeLines_opensNoLog file (stepLimit r.2) r.1 [] p).opened_eq disk
    simp only [this, List.append_nil]
    simp [Work.opened, h, Except.toOption]

/-- A log comes in with all its lines, or with none if it cannot be opened. -/
theorem takeLog_reads (file : LogFile) (hname : LogFile.ofPath? file.path = some file)
    (hfile : disk.isFile file.path = true) (hkept : Kept s disk p files scanned es) :
    (selection.takeLog file p).Reads s selection disk files scanned es := by
  intro hlogs
  obtain ⟨place, born, bytes, access, hat, -, hopen⟩ := Disk.openRead_file hfile
  rw [takeLog_opened, hopen] at hlogs ⊢
  unfold takeLog
  refine Work.Brings.afterRead disk.faults rfl rfl ?_
  have hanswer : (disk.answer (.openRead file.path)).2 = if access = .locked then
      .error .permissionDenied else .ok (⟨place, born, 0⟩, bytes.length) := hopen
  rw [hanswer]
  by_cases hlocked : access = .locked
  · simp only [hlocked, if_true]
    simpa [Except.toOption, Disk.readings, Reading.lineCount, Reading.entries] using
      Work.Brings.pure (hkept.tell _)
  · simp only [if_neg hlocked, Except.toOption, Option.map_some, Option.toList_some,
      List.mem_singleton, forall_eq] at hlogs ⊢
    have hstart := (hkept.file_iff hlogs).mp hat
    have hlines := takeLines_brings selection file (stepLimit bytes.length) ⟨place, born, 0⟩ []
      (by simp [stepLimit, wordLimit]) hlogs hstart hkept
    simpa [Disk.readings, hname, Reading.lineCount, Reading.entries, Disk.linesAt, hstart] using
      hlines

theorem takeLog_ok {file : LogFile} (h : (selection.takeLog file p).Granted disk)
    (hgoing : p.failure = none) :
    ((selection.takeLog file p).run disk).2.failure = none := by
  unfold takeLog at h ⊢
  have hrest := (Work.granted_bind.mp h).2
  rw [Work.run_bind, Work.run_openRead] at *
  cases hopen : disk.openRead file.path with
  | error e => exact hgoing
  | ok r =>
    simp only [hopen] at hrest
    exact takeLines_ok hrest hgoing

end Selection

namespace Walk

/-- The walk that takes logs in. -/
abbrev takeLogs (selection : Selection) : Visitor Progress :=
  ⟨selection.takeLog, Progress.isOver⟩

variable {selection : Selection} {s : Setup} {disk : Disk} {p : Progress}
  {files : List (Path × Handle)} {scanned : Nat} {es : List Entry}

/-- A walk brings in the lines of all logs that it opens. -/
theorem walk_reads (selection : Selection) (reach : Nat) (start : Path)
    (hkept : Kept s disk p files scanned es) :
    (walk (takeLogs selection) reach start p).Reads s selection disk files scanned es := by
  have hcarries : Carries (takeLogs selection)
      (fun (i : List (Path × Handle) × Nat × List Entry) disk p => Kept s disk p i.1 i.2.1 i.2.2)
      fun i disk w => w.Reads s selection disk i.1 i.2.1 i.2.2 :=
    { pure := .pure
      bind := fun hw hf hover => hw.bind (fun files scanned es => hf (files, scanned, es) _ _)
        fun hfailed => by
          rw [hover _ _ (by simpa [Progress.isOver, Option.isSome_iff_ne_none] using hfailed)]
          exact hfailed
      look := .afterLook
      visit := fun hkept hname hfile => Selection.takeLog_reads _ hname hfile hkept }
  exact hcarries.walk reach start (i := (files, scanned, es)) hkept

end Walk

end NodeLogs
