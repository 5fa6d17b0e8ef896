import NodeLogs.Proofs.Pipeline.Together

/-! How lines are counted. Whatever disk answers a call, and be it another one for each, a run
keeps no more lines than it scans. So it is in every outcome, for runs one after another as for
runs in turns, and the total of a report adds up the counts of all its runs. -/

namespace NodeLogs

namespace Counts

/-- No more lines are kept than are scanned. -/
def AddUp (counts : Counts) : Prop :=
  counts.kept ≤ counts.scanned

theorem foldl_add (counts : List Counts) (c : Counts) : counts.foldl (· + ·) c =
    ⟨c.scanned + (counts.map scanned).sum, c.kept + (counts.map kept).sum⟩ := by
  induction counts generalizing c with
  | nil => rfl
  | cons first counts ih =>
    rw [List.foldl_cons, ih, scanned_add, kept_add, Nat.add_assoc, Nat.add_assoc, List.map_cons,
      List.map_cons, List.sum_cons, List.sum_cons]

theorem sum_eq (counts : List Counts) :
    sum counts = ⟨(counts.map scanned).sum, (counts.map kept).sum⟩ := by
  rw [sum, foldl_add, Nat.zero_add, Nat.zero_add]

end Counts

/-- The total of a report sums both counts up, over all its runs. -/
theorem Report.total_eq (report : Report) : report.total =
    ⟨(report.outcomes.map (·.counts.scanned)).sum, (report.outcomes.map (·.counts.kept)).sum⟩ := by
  rw [total, Counts.sum_eq, List.map_map, List.map_map]
  rfl

namespace Work

variable {α β : Type} {Q : α → Prop}

/-- Whatever disks answer the calls of work, its result is of a kind. -/
abbrev Ends (Q : α → Prop) (w : Work α) : Prop :=
  w.Stays (fun _ => True) (fun _ => True) Q

theorem ends (w : Work α) : w.Ends fun _ => True := by
  induction w with
  | done a => exact .done trivial
  | call c next ih => exact .call trivial fun disk _ => ih _

theorem Ends.then {R : β → Prop} (w : Work α) {f : α → Work β} (h : ∀ a, (f a).Ends R) :
    (w >>= f).Ends R :=
  .bind w.ends fun a _ => h a

theorem Ends.run {w : Work α} (h : w.Ends Q) (disk : Disk) : Q (w.run disk).2 :=
  (Stays.run h (fun _ _ _ => id) trivial).1

end Work

/-! ### Pools -/

namespace Pool

variable {α : Type} {jobs : Nat} {Q : α → Prop}

/-- What there is in the slots of a pool is of a kind, and so is all that its tasks end in. -/
structure Ends (Q : α → Prop) (pool : Pool α) : Prop where
  tasks : ∀ task ∈ pool.tasks, task.work.Ends Q
  results : ∀ a, some a ∈ pool.slots → Q a

theorem ends_ofWork {works : List (Work α)} (h : ∀ w ∈ works, w.Ends Q) :
    (ofWork works).Ends Q where
  tasks := by
    intro task htask
    obtain ⟨⟨work, slot⟩, hmem, rfl⟩ := List.mem_map.mp htask
    exact h work (List.mem_of_getElem? (List.mem_zipIdx_iff_getElem?.mp hmem))
  results a ha := by simp [ofWork] at ha

theorem Step.ends {s t : Disk × Pool α} (hstep : Step jobs s t) (h : s.2.Ends Q) :
    t.2.Ends Q := by
  obtain ⟨htasks, hresults⟩ := h
  cases hstep with
  | start disk task waiting active slots hroom =>
    exact ⟨fun other hother => htasks other (by simpa [tasks] using hother), hresults⟩
  | act disk waiting older slot c next younger slots =>
    simp only [tasks, List.append_assoc, List.cons_append, List.forall_mem_append,
      List.forall_mem_cons] at htasks
    obtain ⟨holder, hcall, hrest⟩ := htasks
    refine ⟨?_, hresults⟩
    simp only [tasks, List.append_assoc, List.cons_append, List.forall_mem_append,
      List.forall_mem_cons]
    cases hcall with
    | call _ hnext => exact ⟨holder, hnext disk trivial, hrest⟩
  | collect disk waiting older slot a younger slots hwanted =>
    simp only [tasks, List.append_assoc, List.cons_append, List.forall_mem_append,
      List.forall_mem_cons] at htasks
    obtain ⟨holder, hdone, hrest⟩ := htasks
    refine ⟨?_, fun b hb => ?_⟩
    · simp only [tasks, List.append_assoc, List.forall_mem_append]
      exact ⟨holder, hrest⟩
    · rcases List.mem_or_eq_of_mem_set hb with hb | hb
      · exact hresults b hb
      · cases hb
        cases hdone with
        | done ha => exact ha

theorem Reaches.ends {s t : Disk × Pool α} (hreaches : Reaches jobs s t) (h : s.2.Ends Q) :
    t.2.Ends Q := by
  induction hreaches with
  | refl => exact h
  | step first _ ih => exact ih (first.ends h)

end Pool

/-! ### Lines and runs -/

namespace Selection

variable (selection : Selection) (file : LogFile) {p : Progress} (h : p.counts.AddUp)
include h

/-- A line is scanned whether it is kept or not, and it is kept only once it is written. -/
theorem takeLine_addsUp (line : Bytes) :
    (selection.takeLine file line p).Ends fun p => p.counts.AddUp := by
  cases hkeep : selection.keep? line with
  | none =>
    rw [takeLine_of_dropped file hkeep]
    exact .pure (Nat.le_succ_of_le h)
  | some r =>
    rw [takeLine_of_kept file hkeep]
    refine .then _ fun (writer, failure) => ?_
    cases failure with
    | none => exact .pure (Nat.succ_le_succ h)
    | some e => exact .pure (Nat.le_succ_of_le h)

theorem takeLog_addsUp : (selection.takeLog file p).Ends fun p => p.counts.AddUp := by
  refine .then _ fun opened => ?_
  cases opened with
  | error e => exact .pure h
  | ok log =>
    exact takeLines_stays (fun _ => True) (fun _ _ => id)
      (fun line _ hp => selection.takeLine_addsUp file hp line) (fun _ _ => trivial) _ trivial [] h

end Selection

namespace Pipeline

variable (pl : Pipeline)

theorem filterRun_addsUp (run : Run) :
    (pl.filterRun run).Ends fun result => result.1.counts.AddUp := by
  refine .then _ fun created => ?_
  cases created with
  | error e => exact .pure (Nat.le_refl 0)
  | ok writer =>
    have hwalk : Walk.Keeps ⟨pl.selection.takeLog, Progress.isOver⟩ (fun _ => True) (fun _ => True)
        (fun _ => True) fun p => p.counts.AddUp :=
      ⟨fun _ => trivial, fun _ => trivial, fun _ => trivial, fun _ _ _ _ => trivial,
        fun _ hp => pl.selection.takeLog_addsUp _ hp⟩
    refine .bind (Walk.walk_stays hwalk pl.reach trivial (Nat.le_refl 0)) fun p hp => ?_
    cases p.failure with
    | some e => exact Work.Ends.then _ fun _ => .pure hp
    | none => exact Work.Ends.then _ fun _ => .pure hp

theorem filterRuns_addsUp (runs : List Run) :
    (pl.filterRuns runs).Ends fun results => ∀ result ∈ results, result.1.counts.AddUp := by
  induction runs with
  | nil => exact .pure (by simp)
  | cons run runs ih =>
    exact .bind (pl.filterRun_addsUp run) fun o ho => .bind ih fun os hos =>
      .pure (List.forall_mem_cons.mpr ⟨ho, hos⟩)

/-- In a report on runs that were filtered one after another, all counts add up. -/
theorem process_addsUp (root : Path) : (pl.process root).Ends fun result =>
    ∀ report, result.1 = .ok report → ∀ o ∈ report.outcomes, o.counts.AddUp := by
  refine .then _ fun found => ?_
  cases found with
  | error e => exact .pure nofun
  | ok found =>
    refine .bind (pl.filterRuns_addsUp found.1) fun results hresults => .pure ?_
    rintro _ ⟨⟩
    exact List.forall_mem_map.mpr hresults

/-- The counts of what a task leaves add up, if it leaves any. -/
def Joined.AddUp (joined : Joined) : Prop :=
  ∀ result, joined = .ok result → result.1.counts.AddUp

theorem task_addsUp (run : Run) : (pl.task run).Ends Joined.AddUp := by
  refine .bind (pl.filterRun_addsUp run) fun result hresult => .pure ?_
  rintro _ ⟨⟩
  exact hresult

/-- A run whose slot holds no result counts nothing. -/
theorem settle_addsUp (run : Run) {slot : Option Joined}
    (h : ∀ joined, slot = some joined → joined.AddUp) : (pl.settle run slot).1.counts.AddUp := by
  rcases slot with _ | e | result
  · exact Nat.le_refl 0
  · exact Nat.le_refl 0
  · exact h _ rfl result rfl

variable {pl}

/-- So they do in a report on runs in turns, however far these have got. -/
theorem Together.addsUp {jobs : Nat} {root : Path} {disk later : Disk} {runs : List Run}
    {pool : Pool Joined} (h : pl.Together jobs root disk later (.ok (runs, pool))) :
    ∀ o ∈ (pl.reportOf runs pool).outcomes, o.counts.AddUp := by
  cases h with
  | found _ hreaches =>
    have hstart : (pl.pool runs).Ends Joined.AddUp :=
      Pool.ends_ofWork (List.forall_mem_map.mpr fun run _ => pl.task_addsUp run)
    intro o ho
    rw [reportOf, ← List.map_uncurry_zip_eq_zipWith, List.map_map] at ho
    obtain ⟨⟨run, slot⟩, hmem, rfl⟩ := List.mem_map.mp ho
    refine pl.settle_addsUp run fun joined hslot => (hreaches.ends hstart).results joined ?_
    rw [← hslot]
    exact (List.of_mem_zip hmem).2

/-- With the oldest task first they add up, this being one way for runs to go on. -/
theorem processTogether_addsUp {jobs : Nat} {root : Path} {disk : Disk} {report : Report}
    (h : ((pl.processTogether jobs root).run disk).2.1 = .ok report) :
    ∀ o ∈ report.outcomes, o.counts.AddUp := by
  obtain ⟨r, htogether, hreport, -⟩ := pl.processTogether_together jobs root disk
  rw [hreport] at h
  cases r with
  | error e => cases h
  | ok found =>
    cases h
    exact htogether.addsUp

/-- In the outcome of every run, alone or in a report, no more lines are kept than are scanned,
and the total of a report is the sum over all its runs. -/
structure CountsAddUp (pl : Pipeline) : Prop where
  run : ∀ (run : Run) (disk : Disk), ((pl.filterRun run).run disk).2.1.counts.AddUp
  process : ∀ (root : Path) (disk : Disk) (report : Report),
    ((pl.process root).run disk).2.1 = .ok report → ∀ o ∈ report.outcomes, o.counts.AddUp
  processTogether : ∀ (jobs : Nat) (root : Path) (disk : Disk) (report : Report),
    ((pl.processTogether jobs root).run disk).2.1 = .ok report →
      ∀ o ∈ report.outcomes, o.counts.AddUp
  together : ∀ (jobs : Nat) (root : Path) (disk later : Disk) (runs : List Run)
    (pool : Pool Joined), pl.Together jobs root disk later (.ok (runs, pool)) →
      ∀ o ∈ (pl.reportOf runs pool).outcomes, o.counts.AddUp
  total : ∀ report : Report, report.total =
    ⟨(report.outcomes.map (·.counts.scanned)).sum, (report.outcomes.map (·.counts.kept)).sum⟩

theorem countsAddUp (pl : Pipeline) : pl.CountsAddUp where
  run run disk := (pl.filterRun_addsUp run).run disk
  process root disk := (pl.process_addsUp root).run disk
  processTogether _ _ _ _ := processTogether_addsUp
  together _ _ _ _ _ _ := Together.addsUp
  total := Report.total_eq

end Pipeline

end NodeLogs
