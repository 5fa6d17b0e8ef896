import NodeLogs.Proofs.Output.Writers
import NodeLogs.Proofs.Pipeline.Reading

/-! What becomes of the lines of a log. However its bytes are read, a log comes in as
its lines, one after another. Each is counted, and each that is kept is an entry; as
long as output does not fail, every outlet has been given its entries so far, in order
and in full. -/

namespace NodeLogs

/-! ### What outlets are to hold -/

namespace Outlet

variable (runName : Text) (es : List Entry) (x : Outlet)

/-- Does the outlet take the entry? -/
def takes (e : Entry) : Bool :=
  match x.group with
  | .node n => e.node = n
  | .all => true

/-- The lines of the entries that an outlet takes, one after another. -/
def rendering : Bytes :=
  (es.filter x.takes).flatMap fun e => e.line runName x.form

theorem takes_iff (e : Entry) : x.takes e ↔ x ∈ e.outlets := by
  obtain ⟨g, form⟩ := x
  cases g with
  | node n => cases form <;> simp [takes, Entry.outlets, eq_comm]
  | all => cases form <;> simp [takes, Entry.outlets]

theorem rendering_concat (e : Entry) :
    x.rendering runName (es ++ [e]) =
      x.rendering runName es ++ if x ∈ e.outlets then e.line runName x.form else [] := by
  by_cases h : x ∈ e.outlets
  · simp [rendering, h, (x.takes_iff e).mpr h]
  · have hnot : x.takes e = false := by simpa using mt (x.takes_iff e).mp h
    simp [rendering, h, hnot]

/-- The outlets of all nodes, and those of the nodes that entries come from. -/
def Occurs : Prop :=
  x.group = .all ∨ ∃ e ∈ es, x.group = .node e.node

end Outlet

/-! ### How far a run has come -/

namespace Selection

/-- The entries that come of lines of a log. -/
def entries (selection : Selection) (file : LogFile) (lines : List Bytes) : List Entry :=
  lines.filterMap fun line => (selection.keep? line).map (⟨·, file.path, file.node⟩)

theorem entries_cons (selection : Selection) (file : LogFile) (line : Bytes) (lines : List Bytes) :
    selection.entries file (line :: lines) =
      selection.entries file [line] ++ selection.entries file lines :=
  List.filterMap_append (l := [line])

end Selection

/-- What a run begins with: the disk, where the logs are on it, the directory for
outputs and the run's name. -/
structure Setup where
  disk : Disk
  logs : Place → Prop
  dir : Path
  runName : Text

/-- The place of a log, or of a file that the run has opened under another path. -/
def Setup.Taken (s : Setup) (files : List (Path × Handle)) (p : Path) (place : Place) : Prop :=
  s.logs place ∨ ∃ f ∈ files, f.1 ≠ p ∧ f.2.place = place

/-- So many lines were taken in and these entries kept: output has not failed, each
outlet was given its entries, these are the files that are open for writing, and none
of the logs has changed. -/
structure Kept (s : Setup) (disk : Disk) (p : Progress) (files : List (Path × Handle))
    (scanned : Nat) (es : List Entry) : Prop where
  going : p.failure = none
  counts : p.counts = ⟨scanned, es.length⟩
  cwd : disk.HasCwd
  dir_eq : p.writer.dir = s.dir
  name_eq : p.writer.runName = s.runName
  holds : p.writer.Holds disk fun x => x.rendering s.runName es
  files_iff : p.writer.sinks.WriteTo s.dir files
  open_iff : ∀ x, (p.writer.sinks x).isSome ↔ x.Occurs es
  free : ∀ f ∈ files, ¬ s.logs f.2.place
  same : Disk.SameFiles s.logs s.disk disk

namespace Kept

variable {s : Setup} {disk : Disk} {p : Progress} {files : List (Path × Handle)} {scanned : Nat}
  {es : List Entry}

theorem usesElse (h : Kept s disk p files scanned es) {path : Path} {place : Place}
    (huses : p.writer.sinks.UsesElse path place) : s.Taken files path place := by
  obtain ⟨x, sink, hx, hpath, rfl⟩ := huses
  obtain ⟨handle, hmem, heq⟩ := (h.files_iff _ _).mpr ⟨x, sink, hx, rfl, rfl⟩
  refine .inr ⟨_, hmem, ?_, heq⟩
  rwa [← h.dir_eq, ← h.holds.sinks.named x sink hx]

/-- A log is still the file that it was when the run began. -/
theorem file_iff (h : Kept s disk p files scanned es) {place : Place} (hlogs : s.logs place)
    {born : Nat} {bytes : Bytes} {access : Access} :
    disk.root.at? place = some (.file born bytes access) ↔
      s.disk.root.at? place = some (.file born bytes access) :=
  h.same place hlogs born bytes access

/-- What is told changes nothing. -/
theorem tell (h : Kept s disk p files scanned es) (n : Notice) :
    Kept s disk (p.tell n) files scanned es :=
  { h with }

/-- Reading changes nothing but what devices do next. -/
theorem withFaults (h : Kept s disk p files scanned es) (faults : Faults) :
    Kept s { disk with faults } p files scanned es :=
  { h with
    holds := ⟨{ h.holds.sinks with holds := fun x sink hx => h.holds.sinks.holds x sink hx },
      h.holds.once⟩ }

/-- A line is counted. -/
theorem count (h : Kept s disk p files scanned es) :
    Kept s disk { p with counts := p.counts + ⟨1, 0⟩ } files (scanned + 1) es :=
  { h with
    counts := by
      show p.counts + ⟨1, 0⟩ = _
      rw [h.counts]
      rfl }

/-- An entry that is written without a failure is one more that is kept. -/
theorem write (h : Kept s disk p files scanned es) (e : Entry)
    (hown : (p.writer.write e.record e.source e.node).OpensOwn disk (s.Taken files))
    (hok : ((p.writer.write e.record e.source e.node).run disk).2.2 = none) :
    Kept s ((p.writer.write e.record e.source e.node).run disk).1
      { p with
        writer := ((p.writer.write e.record e.source e.node).run disk).2.1
        counts := p.counts + ⟨0, 1⟩ }
      (files ++ (p.writer.write e.record e.source e.node).created disk) scanned (es ++ [e]) := by
  have hfiles : p.writer.sinks.WriteTo p.writer.dir files := h.dir_eq ▸ h.files_iff
  have hown' := hown.mono fun _ _ => h.usesElse
  have hu := (p.writer.write e.record e.source e.node).run_updates h.cwd
  have htouched := Writer.write_touched h.cwd h.holds e hown' hfiles
  have hfree : ∀ f ∈ files ++ (p.writer.write e.record e.source e.node).created disk,
      ¬ s.logs f.2.place := by
    intro f hf hlogs
    rcases List.mem_append.mp hf with hf | hf
    · exact h.free f hf hlogs
    · exact hown.free f hf (.inl hlogs)
  rcases Writer.write_holds h.cwd h.holds e hown' with
    ⟨failure, hfailed, -⟩ | ⟨later, hserved, hholds, hdir, hname, hopen, hwrite⟩
  · rw [hfailed] at hok
    cases hok
  · rw [hok] at hserved
    have hlater : later = fun x => x.rendering s.runName (es ++ [e]) := by
      funext x
      rw [hserved.eq_of_all e.outlets_nodup, h.name_eq]
      exact (x.rendering_concat s.runName es e).symm
    subst hlater
    refine ⟨h.going, ?_, hu.hasCwd h.cwd, hdir.trans h.dir_eq, hname.trans h.name_eq, hholds,
      h.dir_eq ▸ hwrite files hfiles, fun x => ?_, hfree, h.same.trans (hu.sameFiles ?_)⟩
    · show p.counts + ⟨0, 1⟩ = _
      rw [h.counts, List.length_append]
      rfl
    · rw [hopen x, h.open_iff x]
      simp [Outlet.Occurs, or_and_right, exists_or, or_assoc]
    · intro place hlogs hplace
      obtain ⟨f, hf, rfl⟩ := htouched place hplace
      exact hfree f hf hlogs

end Kept

/-! ### Work that takes lines in -/

namespace Work

/-- On its own files and unless output fails, work brings it to so many lines and to
these entries. -/
def Brings (s : Setup) (w : Work Progress) (disk : Disk) (files : List (Path × Handle))
    (scanned : Nat) (es : List Entry) : Prop :=
  w.OpensOwn disk (s.Taken files) → (w.run disk).2.failure = none →
    Kept s (w.run disk).1 (w.run disk).2 (files ++ w.created disk) scanned es

variable {s : Setup} {disk : Disk} {files : List (Path × Handle)} {scanned later : Nat}
  {es last : List Entry}

theorem Brings.pure {p : Progress} (h : Kept s disk p files scanned es) :
    (Pure.pure p : Work Progress).Brings s disk files scanned es := by
  intro _ _
  simpa using h

/-- Work goes on from where other work has brought it, unless that has failed. -/
theorem Brings.bind {w : Work Progress} {f : Progress → Work Progress}
    (hw : w.Brings s disk files scanned es)
    (hf : Kept s (w.run disk).1 (w.run disk).2 (files ++ w.created disk) scanned es →
      (f (w.run disk).2).Brings s (w.run disk).1 (files ++ w.created disk) later last)
    (hfailed : (w.run disk).2.failure ≠ none →
      ((f (w.run disk).2).run (w.run disk).1).2.failure ≠ none) :
    (w >>= f).Brings s disk files later last := by
  intro hown hok
  rw [run_bind] at hok ⊢
  rw [created_bind, ← List.append_assoc]
  have hgoing : (w.run disk).2.failure = none := Classical.byContradiction fun h => hfailed h hok
  refine hf (hw hown.left hgoing) (hown.right.mono fun p place htaken => ?_) hok
  rcases htaken with hlogs | ⟨g, hg, hne, heq⟩
  · exact .inl (.inl hlogs)
  · rcases List.mem_append.mp hg with hg | hg
    · exact .inl (.inr ⟨g, hg, hne, heq⟩)
    · exact .inr ⟨g, hg, hne, heq⟩

/-- Looking at the disk first changes nothing, apart from what devices do next. -/
theorem Brings.afterRead {c : Call} {f : c.Answer → Work Progress} (faults : Faults)
    (hc : (disk.answer c).1 = { disk with faults }) (hcreated : (Work.ask c).created disk = [])
    (hf : (f (disk.answer c).2).Brings s { disk with faults } files scanned es) :
    (Work.ask c >>= f).Brings s disk files scanned es := by
  intro hown hok
  have hright := hown.right
  rw [run_bind, run_ask, hc] at hok ⊢
  rw [run_ask, hc] at hright
  rw [created_bind, hcreated, List.nil_append, run_ask, hc]
  rw [hcreated] at hright
  exact hf (hright.mono fun p place htaken => .inl htaken) hok

theorem Brings.goesOn {disk later : Disk} {u w : Work Progress}
    (h : GoesOn disk u later w) (hw : w.Brings s later files scanned es) :
    u.Brings s disk files scanned es := by
  cases h with
  | atOnce => exact hw
  | read handle limit f =>
    obtain ⟨reads, hread⟩ := disk.read_disk handle limit
    exact .afterRead _ hread rfl (hread ▸ hw)

end Work

/-! ### Taking lines in -/

namespace Selection

variable (selection : Selection) (file : LogFile)

theorem takeLine_opensNoLog (line : Bytes) (p : Progress) :
    (selection.takeLine file line p).OpensNoLog := by
  cases hkeep : selection.keep? line with
  | none =>
    rw [takeLine_of_dropped file hkeep]
    exact .pure trivial
  | some r =>
    rw [takeLine_of_kept file hkeep]
    exact Work.Stays.bind (p.writer.write_opensNoLog r file.path file.node) fun _ _ =>
      .pure trivial

theorem takeLines_opensNoLog (steps : Nat) (h : Handle) (pending : Bytes) (p : Progress) :
    (selection.takeLines file steps h pending p).OpensNoLog :=
  takeLines_stays (fun _ => True) (fun _ _ => id)
    (fun line p _ => selection.takeLine_opensNoLog file line p) (by simp) steps trivial pending
    trivial

variable {selection file} {s : Setup} {disk : Disk} {p : Progress}
  {files : List (Path × Handle)} {scanned : Nat} {es : List Entry}

/-- A line is one more, and its entry is added if it is kept. -/
theorem takeLine_brings (h : Kept s disk p files scanned es) (line : Bytes) :
    (selection.takeLine file line p).Brings s disk files (scanned + 1)
      (es ++ selection.entries file [line]) := by
  cases hkeep : selection.keep? line with
  | none =>
    rw [takeLine_of_dropped file hkeep, show selection.entries file [line] = [] by
      simp [entries, hkeep], List.append_nil]
    exact .pure h.count
  | some r =>
    rw [takeLine_of_kept file hkeep, show selection.entries file [line] =
      [⟨r, file.path, file.node⟩] by simp [entries, hkeep]]
    intro hown hok
    rw [Work.run_bind, Work.run_pure, p.wrote_failure h.going] at hok
    rw [Work.run_bind, Work.created_bind, Work.run_pure, Work.created_pure, List.append_nil,
      Progress.wrote_of_written hok]
    exact h.count.write ⟨r, file.path, file.node⟩ hown.left hok

variable (selection file) in
/-- An open log comes in as its lines: what was read and not taken in yet comes first,
then what is left in the file. -/
theorem takeLines_brings (steps : Nat) (h : Handle) (pending : Bytes) {bytes : Bytes}
    {access : Access}
    (hsteps : 2 * (bytes.length - h.offset) + pending.length < steps) (hlogs : s.logs h.place)
    (hfile : s.disk.root.at? h.place = some (.file h.born bytes access))
    (hkept : Kept s disk p files scanned es) :
    (selection.takeLines file steps h pending p).Brings s disk files
      (scanned + (linesOf access (pending ++ bytes.drop h.offset)).length)
      (es ++ selection.entries file (linesOf access (pending ++ bytes.drop h.offset))) := by
  induction steps generalizing disk h pending p files scanned es with
  | zero => cases hsteps
  | succ steps ih =>
    obtain ⟨later, w, hgoes, hnext⟩ :=
      selection.takeLines_next file hsteps ((hkept.file_iff hlogs).mpr hfile) p
    have hkept : Kept s later p files scanned es := by
      obtain ⟨reads, rfl⟩ := hgoes.later_eq
      exact hkept.withFaults _
    refine .goesOn hgoes ?_
    cases hnext with
    | @line line rest hlines hrest =>
      rw [hlines, entries_cons, List.length_cons, Nat.add_comm _ 1, ← Nat.add_assoc,
        ← List.append_assoc]
      refine (takeLine_brings hkept line).bind (fun hkept' => ?_) fun hfailed => ?_
      · rw [Progress.isOver_of_going hkept'.going]
        exact ih h rest hrest hlogs hfile hkept'
      · rwa [Progress.isOver_of_stopped hfailed]
    | more hleft hrest =>
      rw [← hleft]
      exact ih _ _ hrest hlogs hfile hkept
    | ended hlines =>
      rw [hlines, entries, List.filterMap_nil, List.append_nil]
      refine .pure ?_
      split
      · exact hkept.tell _
      · exact hkept

/-! ### Where nothing is refused -/

theorem takeLine_ok {line : Bytes} (h : (selection.takeLine file line p).Granted disk)
    (hgoing : p.failure = none) :
    ((selection.takeLine file line p).run disk).2.failure = none := by
  cases hkeep : selection.keep? line with
  | none =>
    rw [takeLine_of_dropped file hkeep]
    exact hgoing
  | some r =>
    rw [takeLine_of_kept file hkeep] at h ⊢
    rw [Work.run_bind, Work.run_pure, p.wrote_failure hgoing]
    exact Writer.write_ok (e := ⟨r, file.path, file.node⟩) (Work.granted_bind.mp h).1

theorem takeLines_ok {steps : Nat} {h : Handle} {pending : Bytes}
    (hgranted : (selection.takeLines file steps h pending p).Granted disk)
    (hgoing : p.failure = none) :
    ((selection.takeLines file steps h pending p).run disk).2.failure = none := by
  induction steps generalizing h pending p disk with
  | zero => exact hgoing
  | succ steps ih =>
    have hline {disk : Disk} {line : Bytes} {h : Handle} {rest : Bytes} (hgranted :
        (selection.takeLineThen file line (selection.takeLines file steps h rest) p).Granted
          disk) :
        ((selection.takeLineThen file line (selection.takeLines file steps h rest) p).run
          disk).2.failure = none := by
      unfold takeLineThen at hgranted ⊢
      obtain ⟨hfirst, hrest⟩ := Work.granted_bind.mp hgranted
      have hnone := takeLine_ok hfirst hgoing
      rw [Progress.isOver_of_going hnone] at hrest
      rw [Work.run_bind, Progress.isOver_of_going hnone]
      exact ih hrest hnone
    cases hcut : cutLine? pending with
    | some cut =>
      rw [takeLines_of_cut file hcut] at hgranted ⊢
      exact hline hgranted
    | none =>
      rw [takeLines_of_uncut file hcut] at hgranted ⊢
      rcases hread : disk.answer (.read h chunkSize) with ⟨later, e | ⟨_ | ⟨b, bs⟩, h'⟩⟩
      all_goals
        have hrest := (Work.granted_bind.mp hgranted).2
        rw [Work.run_ask, hread] at hrest
        rw [Work.run_bind, Work.run_ask, hread]
      · exact hgoing
      · simp only [takeRead] at hrest ⊢
        split
        · exact hgoing
        next hpending =>
          rw [if_neg hpending] at hrest
          exact hline hrest
      · exact ih hrest hgoing

end Selection

end NodeLogs
