import Mathlib.Logic.Hydra
import NodeLogs.Pipeline.Pool
import NodeLogs.Proofs.Tree.Apart
import NodeLogs.Proofs.Tree.History

/-! Tasks in turns. Whatever a pool's tasks do, no more of them are active than there is
room for, each has a slot of its own, and no slot is left empty at the end. If calls of
different tasks are independent, the order of the calls does not matter: what is left
comes to the same as if the tasks were seen through one after another. -/

namespace NodeLogs

namespace Work

variable {α : Type}

/-- What is left of work after some calls, however these were answered. -/
inductive Leaves : Work α → Work α → Prop where
  | refl (w) : Leaves w w
  | call {c next w} (answer) (later : Leaves (next answer) w) : Leaves (call c next) w

theorem Leaves.next {w : Work α} {c : Call} {next : c.Answer → Work α}
    (h : w.Leaves (.call c next)) (answer : c.Answer) : w.Leaves (next answer) := by
  generalize hrest : Work.call c next = rest at h
  induction h with
  | refl w =>
    subst hrest
    exact .call answer (.refl _)
  | call first _ ih => exact .call first (ih hrest)

theorem leaves_run (w : Work α) (disk : Disk) : w.Leaves (.done (w.run disk).2) := by
  induction w generalizing disk with
  | done a => exact .refl _
  | call c next ih => exact .call _ (ih _ _)

/-- Work that goes on with a result can end in no other way than both its parts. -/
theorem Leaves.of_bind {β : Type} {w : Work α} {f : α → Work β} {b : β}
    (h : (w >>= f).Leaves (.done b)) : ∃ a, w.Leaves (.done a) ∧ (f a).Leaves (.done b) := by
  induction w with
  | done a => exact ⟨a, .refl _, h⟩
  | call c next ih =>
    cases h with
    | call answer later =>
      obtain ⟨a, hw, hf⟩ := ih answer later
      exact ⟨a, .call answer hw, hf⟩

/-- What is left of work after its next call. -/
inductive Remains : Work α → Work α → Prop where
  | mk {c next} (answer) : Remains (next answer) (.call c next)

theorem remains_wellFounded : WellFounded (Remains : Work α → Work α → Prop) := by
  refine ⟨fun w => ?_⟩
  induction w with
  | done a => exact ⟨_, fun _ h => nomatch h⟩
  | call c next ih =>
    refine ⟨_, fun _ h => ?_⟩
    cases h with
    | mk answer => exact ih answer

/-- A call that is independent of the calls of work may come before it or after it. -/
theorem Stays.independent {ok : Disk → Prop} {P : Call → Prop} {Q : α → Prop} {w : Work α}
    (hw : w.Stays ok P Q) (hok : ∀ disk c, ok disk → ok (disk.answer c).1) {d : Call}
    (hd : ∀ disk c, ok disk → P c → disk.Independent c d) {disk : Disk} (hdisk : ok disk) :
    (w.run (disk.answer d).1).2 = (w.run disk).2 ∧
      ((w.run disk).1.answer d).2 = (disk.answer d).2 ∧
      (w.run (disk.answer d).1).1 = ((w.run disk).1.answer d).1 := by
  induction hw generalizing disk with
  | done => exact ⟨rfl, rfl, rfl⟩
  | @call c next hP _ ih =>
    obtain ⟨hfirst, hsecond, hboth⟩ := hd disk c hdisk hP
    obtain ⟨hresult, hanswer, hlater⟩ := ih disk hdisk (hok disk c hdisk)
    simp only [Work.run, hfirst, ← hboth]
    exact ⟨hresult, hanswer.trans hsecond, hlater⟩

end Work

namespace Pool

variable {α : Type} {jobs : Nat}

/-! ### What is left to do -/

/-- The tasks that are not done, in the order in which they are started. -/
def tasks (pool : Pool α) : List (Task α) :=
  pool.active ++ pool.waiting

/-- What is left to do, one task after another. -/
def rest (pool : Pool α) : Work (List (Option α)) :=
  seeThrough pool.tasks pool.slots

/-- With the oldest task first, the tasks are seen through in the order in which they wait. -/
theorem startAll_eq (waiting active : List (Task α)) (slots : List (Option α))
    (hroom : active.length ≤ room jobs) :
    startAll jobs waiting active slots = seeThrough (active ++ waiting) slots := by
  induction waiting generalizing active slots with
  | nil => rw [startAll, List.append_nil]
  | cons task waiting ih =>
    unfold startAll
    split
    next h =>
      rw [ih _ _ (by simpa [Nat.succ_le_iff] using h), List.append_assoc, List.singleton_append]
    next h =>
      cases active with
      | nil => exact absurd (room_pos jobs) h
      | cons oldest active =>
        dsimp only
        rw [List.cons_append, seeThrough]
        congr 1
        funext a
        rw [ih _ _ (by simpa using hroom), List.append_assoc, List.singleton_append]

theorem workOff_ofWork (works : List (Work α)) :
    (ofWork works).workOff jobs = (ofWork works).rest :=
  startAll_eq _ [] _ (Nat.zero_le _)

/-- Tasks with slots of their own, whose calls on disks of a kind are of the slot's kind. -/
structure KeepTo (ok : Disk → Prop) (P : Nat → Call → Prop) (tasks : List (Task α)) : Prop where
  calls : ∀ task ∈ tasks, task.work.Stays ok (P task.slot) fun _ => True
  once : (tasks.map Task.slot).Nodup

section KeepTo

variable {ok : Disk → Prop} {P : Nat → Call → Prop}
  (hok : ∀ disk c, ok disk → ok (disk.answer c).1)
  (hind : ∀ {j k}, j ≠ k → ∀ {disk c d}, ok disk → P j c → P k d → disk.Independent c d)

/-- Without one of them the tasks keep to their slots. -/
theorem KeepTo.without {older younger : List (Task α)} {task : Task α}
    (h : KeepTo ok P (older ++ task :: younger)) : KeepTo ok P (older ++ younger) := by
  have hsub : (older ++ younger).Sublist (older ++ task :: younger) :=
    (List.Sublist.refl older).append (List.sublist_cons_self task younger)
  exact ⟨fun other hother => h.calls other (hsub.subset hother), h.once.sublist (hsub.map _)⟩

/-- So they do when one of them goes on. -/
theorem KeepTo.act {older younger : List (Task α)} {slot : Nat} {c : Call}
    {next : c.Answer → Work α} (h : KeepTo ok P (older ++ ⟨slot, .call c next⟩ :: younger))
    {disk : Disk} (hdisk : ok disk) :
    KeepTo ok P (older ++ ⟨slot, next (disk.answer c).2⟩ :: younger) := by
  refine ⟨?_, by simpa using h.once⟩
  obtain ⟨hbefore, hmiddle⟩ := List.forall_mem_append.mp h.calls
  obtain ⟨hcall, hafter⟩ := List.forall_mem_cons.mp hmiddle
  refine List.forall_mem_append.mpr ⟨hbefore, List.forall_mem_cons.mpr ⟨?_, hafter⟩⟩
  cases hcall with
  | call _ hnext => exact hnext disk hdisk

theorem KeepTo.call {older younger : List (Task α)} {slot : Nat} {c : Call}
    {next : c.Answer → Work α} (h : KeepTo ok P (older ++ ⟨slot, .call c next⟩ :: younger)) :
    P slot c := by
  cases h.calls ⟨slot, .call c next⟩ (by simp) with
  | call hP _ => exact hP

/-- No older task has the slot of a task. -/
theorem KeepTo.ne {older younger : List (Task α)} {task oldest : Task α}
    (h : KeepTo ok P (oldest :: older ++ task :: younger)) : oldest.slot ≠ task.slot := by
  have hnot := (List.nodup_cons.mp h.once).1
  rintro heq
  exact hnot (List.mem_map.mpr ⟨task, by simp, heq.symm⟩)

theorem KeepTo.tail {oldest : Task α} {tasks : List (Task α)} (h : KeepTo ok P (oldest :: tasks)) :
    KeepTo ok P tasks :=
  ⟨(List.forall_mem_cons.mp h.calls).2, (List.nodup_cons.mp h.once).2⟩

include hok hind

/-- A call that a task makes out of its turn changes nothing of what all come to. -/
theorem seeThrough_act {older younger : List (Task α)} {slot : Nat} {c : Call}
    {next : c.Answer → Work α} (h : KeepTo ok P (older ++ ⟨slot, .call c next⟩ :: younger))
    (slots : List (Option α)) {disk : Disk} (hdisk : ok disk) :
    (seeThrough (older ++ ⟨slot, next (disk.answer c).2⟩ :: younger) slots).run (disk.answer c).1 =
      (seeThrough (older ++ ⟨slot, .call c next⟩ :: younger) slots).run disk := by
  induction older generalizing disk slots with
  | nil =>
    simp only [List.nil_append, seeThrough, Work.run_bind]
    rfl
  | cons oldest older ih =>
    have hcalls := h.calls oldest (by simp)
    obtain ⟨hresult, hanswer, hlater⟩ := hcalls.independent hok
      (fun disk c hdisk hc => hind h.ne hdisk hc h.call) hdisk
    have hrest := ih h.tail (slots.set oldest.slot (some (oldest.work.run disk).2))
      (hcalls.run (fun disk c hdisk _ => hok disk c hdisk) hdisk).2
    simp only [List.cons_append, seeThrough, Work.run_bind]
    rw [hresult, hlater, ← hanswer]
    exact hrest

omit hok hind in
/-- A result that is put into its slot out of its turn changes nothing, either. -/
theorem seeThrough_collect {older younger : List (Task α)} {slot : Nat} {a : α}
    (h : KeepTo ok P (older ++ ⟨slot, .done a⟩ :: younger)) (slots : List (Option α)) :
    seeThrough (older ++ younger) (slots.set slot (some a)) =
      seeThrough (older ++ ⟨slot, .done a⟩ :: younger) slots := by
  induction older generalizing slots with
  | nil => rfl
  | cons oldest older ih =>
    simp only [List.cons_append, seeThrough]
    congr 1
    funext b
    rw [List.set_comm _ _ h.ne.symm]
    exact ih h.tail _

/-- A step leaves as it is what is left to do comes to. -/
theorem Step.rest_run {s t : Disk × Pool α} (hstep : Step jobs s t) (hdisk : ok s.1)
    (hkeep : KeepTo ok P s.2.tasks) :
    ok t.1 ∧ KeepTo ok P t.2.tasks ∧ t.2.rest.run t.1 = s.2.rest.run s.1 := by
  cases hstep with
  | start disk task waiting active slots hroom =>
    have htasks : (⟨waiting, active ++ [task], slots⟩ : Pool α).tasks =
        (⟨task :: waiting, active, slots⟩ : Pool α).tasks := by simp [tasks]
    refine ⟨hdisk, htasks ▸ hkeep, ?_⟩
    rw [rest, rest, htasks]
  | act disk waiting older slot c next younger slots =>
    simp only [tasks, List.append_assoc, List.cons_append] at hkeep
    simp only [rest, tasks, List.append_assoc, List.cons_append]
    exact ⟨hok _ _ hdisk, hkeep.act hdisk, seeThrough_act hok hind hkeep slots hdisk⟩
  | collect disk waiting older slot a younger slots hwanted =>
    simp only [tasks, List.append_assoc, List.cons_append] at hkeep
    simp only [rest, tasks, List.append_assoc, List.cons_append]
    exact ⟨hdisk, hkeep.without, by rw [seeThrough_collect hkeep]⟩

/-- In whatever order the tasks take their steps, all comes to the same. -/
theorem Reaches.rest_run {s t : Disk × Pool α} (hreaches : Reaches jobs s t) (hdisk : ok s.1)
    (hkeep : KeepTo ok P s.2.tasks) : t.2.rest.run t.1 = s.2.rest.run s.1 := by
  induction hreaches with
  | refl => rfl
  | step first _ ih =>
    obtain ⟨hdisk', hkeep', hrun⟩ := first.rest_run hok hind hdisk hkeep
    exact (ih hdisk' hkeep').trans hrun

end KeepTo

/-! ### Slots -/

/-- A pool at work on a list of works: there is room for what is active, the tasks wait
in their order, and for each piece of work there is its task or its result. -/
structure Tidy (jobs : Nat) (works : List (Work α)) (pool : Pool α) : Prop where
  room : pool.active.length ≤ room jobs
  waiting : pool.waiting <:+ (ofWork works).waiting
  length : pool.slots.length = works.length
  once : (pool.tasks.map Task.slot).Nodup
  own : ∀ task ∈ pool.tasks, ∃ work : Work α, works[task.slot]? = some work ∧ work.Leaves task.work
  left : ∀ k : Nat, k ∈ pool.tasks.map Task.slot ↔ pool.slots[k]? = some none
  filled : ∀ (k : Nat) (a : α), pool.slots[k]? = some (some a) →
    ∃ work : Work α, works[k]? = some work ∧ work.Leaves (.done a)

theorem tidy_ofWork (jobs : Nat) (works : List (Work α)) : (ofWork works).Tidy jobs works := by
  have hslots : (ofWork works).tasks.map Task.slot = List.range works.length := by
    simp [tasks, ofWork, Function.comp_def, List.range_eq_range']
  refine ⟨Nat.zero_le _, List.suffix_rfl, by simp [ofWork], ?_, ?_, fun k => ?_, ?_⟩
  · rw [hslots]
    exact List.nodup_range
  · intro task htask
    obtain ⟨⟨work, slot⟩, hmem, rfl⟩ := List.mem_map.mp htask
    exact ⟨work, List.mem_zipIdx_iff_getElem?.mp hmem, .refl work⟩
  · rw [hslots, List.mem_range]
    simp only [ofWork, List.getElem?_map, Option.map_eq_some_iff, and_true]
    exact ⟨fun hk => ⟨_, List.getElem?_eq_getElem hk⟩,
      fun ⟨_, hk⟩ => (List.getElem?_eq_some_iff.mp hk).1⟩
  · intro k a hk
    obtain ⟨work, -, hnone⟩ := Option.map_eq_some_iff.mp (List.getElem?_map .. ▸ hk)
    cases hnone

namespace Tidy

variable {works : List (Work α)} {task : Task α} {waiting active older younger : List (Task α)}
  {slots : List (Option α)} {slot : Nat}

theorem start (h : (⟨task :: waiting, active, slots⟩ : Pool α).Tidy jobs works)
    (hroom : active.length < Pool.room jobs) :
    (⟨waiting, active ++ [task], slots⟩ : Pool α).Tidy jobs works := by
  have htasks : (⟨waiting, active ++ [task], slots⟩ : Pool α).tasks =
      (⟨task :: waiting, active, slots⟩ : Pool α).tasks := by simp [tasks]
  exact
    { room := by simpa [Nat.succ_le_iff] using hroom
      waiting := (List.suffix_cons task waiting).trans h.waiting
      length := h.length
      once := htasks ▸ h.once
      own := htasks ▸ h.own
      left := htasks ▸ h.left
      filled := h.filled }

theorem act {c : Call} {next : c.Answer → Work α}
    (h : (⟨waiting, older ++ ⟨slot, .call c next⟩ :: younger, slots⟩ : Pool α).Tidy jobs works)
    (answer : c.Answer) :
    (⟨waiting, older ++ ⟨slot, next answer⟩ :: younger, slots⟩ : Pool α).Tidy jobs works := by
  have hslots : (⟨waiting, older ++ ⟨slot, next answer⟩ :: younger, slots⟩ : Pool α).tasks.map
      Task.slot = (⟨waiting, older ++ ⟨slot, .call c next⟩ :: younger, slots⟩ : Pool α).tasks.map
      Task.slot := by simp [tasks]
  refine ⟨by simpa using h.room, h.waiting, h.length, hslots ▸ h.once, ?_, hslots ▸ h.left,
    h.filled⟩
  have hown := h.own
  simp only [tasks, List.append_assoc, List.cons_append, List.forall_mem_append,
    List.forall_mem_cons] at hown ⊢
  obtain ⟨holder, ⟨work, hwork, hleaves⟩, hrest⟩ := hown
  exact ⟨holder, ⟨work, hwork, hleaves.next answer⟩, hrest⟩

theorem collect {a : α}
    (h : (⟨waiting, older ++ ⟨slot, .done a⟩ :: younger, slots⟩ : Pool α).Tidy jobs works) :
    (⟨waiting, older ++ younger, slots.set slot (some a)⟩ : Pool α).Tidy jobs works := by
  obtain ⟨work, hwork, hleaves⟩ := h.own ⟨slot, .done a⟩ (by simp [tasks])
  have hlt : slot < slots.length := h.length ▸ (List.getElem?_eq_some_iff.mp hwork).1
  have hperm : (⟨waiting, older ++ ⟨slot, .done a⟩ :: younger, slots⟩ : Pool α).tasks.Perm
      (⟨slot, .done a⟩ :: (⟨waiting, older ++ younger, slots.set slot (some a)⟩ : Pool α).tasks) :=
    List.perm_middle.append_right waiting
  have honce := List.nodup_cons.mp ((hperm.map Task.slot).nodup_iff.mp h.once)
  have hroom := h.room
  refine ⟨?_, h.waiting, by simpa using h.length, honce.2, fun other hother => ?_, fun k => ?_,
    fun k b hk => ?_⟩
  · simp only [List.length_append, List.length_cons] at hroom ⊢
    omega
  · exact h.own other (hperm.mem_iff.mpr (List.mem_cons_of_mem _ hother))
  · have hleft := h.left k
    rw [(hperm.map Task.slot).mem_iff, List.map_cons, List.mem_cons] at hleft
    by_cases hk : k = slot
    · subst hk
      simpa [List.getElem?_set, hlt] using honce.1
    · rw [List.getElem?_set_ne (Ne.symm hk), ← hleft, or_iff_right hk]
  · by_cases hslot : k = slot
    · subst hslot
      rw [List.getElem?_set_self hlt] at hk
      cases hk
      exact ⟨work, hwork, hleaves⟩
    · rw [List.getElem?_set_ne (Ne.symm hslot)] at hk
      exact h.filled k b hk

end Tidy

theorem Step.tidy {works : List (Work α)} {s t : Disk × Pool α} (hstep : Step jobs s t)
    (h : s.2.Tidy jobs works) : t.2.Tidy jobs works := by
  cases hstep with
  | start _ _ _ _ _ hroom => exact Tidy.start h hroom
  | act => exact Tidy.act h _
  | collect => exact Tidy.collect h

theorem Reaches.tidy {works : List (Work α)} {s t : Disk × Pool α} (hreaches : Reaches jobs s t)
    (h : s.2.Tidy jobs works) : t.2.Tidy jobs works := by
  induction hreaches with
  | refl => exact h
  | step first _ ih => exact ih (first.tidy h)

/-- A pool that is not over can go on. -/
theorem Tidy.exists_step {works : List (Work α)} {pool : Pool α} (h : pool.Tidy jobs works)
    (hover : pool.isOver = false) (disk : Disk) : ∃ next, Step jobs (disk, pool) next := by
  obtain ⟨waiting, active, slots⟩ := pool
  have hcollect {oldest younger} (hactive : active = oldest :: younger)
      (hwanted : waiting = [] ∨ Pool.room jobs ≤ younger.length + 1) :
      ∃ next, Step jobs (disk, ⟨waiting, active, slots⟩) next := by
    subst hactive
    obtain ⟨slot, work⟩ := oldest
    cases work with
    | done a => exact ⟨_, .collect disk waiting [] slot a younger slots (by simpa using hwanted)⟩
    | call c next => exact ⟨_, .act disk waiting [] slot c next younger slots⟩
  cases waiting with
  | nil =>
    cases active with
    | nil => cases hover
    | cons oldest younger => exact hcollect rfl (.inl rfl)
  | cons task waiting =>
    by_cases hroom : active.length < Pool.room jobs
    · exact ⟨_, .start disk task waiting active slots hroom⟩
    · cases active with
      | nil => exact absurd (room_pos jobs) hroom
      | cons oldest younger => exact hcollect rfl (.inr (Nat.not_lt.mp hroom))

/-- At the end, no slot is empty. -/
theorem Tidy.isSome_of_isOver {works : List (Work α)} {pool : Pool α} (h : pool.Tidy jobs works)
    (hover : pool.isOver) : ∀ slot ∈ pool.slots, slot.isSome := by
  have htasks : pool.tasks = [] := by simpa [tasks, isOver, and_comm] using hover
  intro slot hslot
  obtain ⟨k, hk, rfl⟩ := List.getElem_of_mem hslot
  have hleft := h.left k
  rw [htasks, List.getElem?_eq_getElem hk] at hleft
  cases hvalue : pool.slots[k] with
  | some a => rfl
  | none => exact absurd (hleft.mpr (congrArg some hvalue)) List.not_mem_nil

/-- At the end there is a result for each piece of work, one that it can end in. -/
theorem Tidy.results {works : List (Work α)} {pool : Pool α} (h : pool.Tidy jobs works)
    (hover : pool.isOver) : ∃ results : List α, pool.slots = results.map some ∧
      List.Forall₂ (fun work a => Work.Leaves work (.done a)) works results := by
  obtain ⟨results, hslots⟩ : ∃ results : List α, pool.slots = results.map some :=
    ⟨pool.slots.filterMap id, by rw [List.map_filterMap_some_eq_filter_map_isSome, List.map_id,
      List.filter_eq_self.mpr (h.isSome_of_isOver hover)]⟩
  have hlength : works.length = results.length := by rw [← h.length, hslots, List.length_map]
  refine ⟨results, hslots, List.forall₂_iff_get.mpr ⟨hlength, fun k hk hk' => ?_⟩⟩
  obtain ⟨work, hwork, hleaves⟩ := h.filled k results[k] (by simp [hslots])
  rw [List.getElem?_eq_getElem hk, Option.some.injEq] at hwork
  rw [← hwork] at hleaves
  exact hleaves

/-! ### The end -/

/-- The work of a pool's tasks, and whether it waits. -/
def stages (pool : Pool α) : Multiset (Bool × Work α) :=
  ↑(pool.active.map fun task => (false, task.work)) +
    ↑(pool.waiting.map fun task => (true, task.work))

/-- Each step takes some work further: it starts, makes a call, or is done with. -/
theorem Step.cutExpand {s t : Disk × Pool α} (hstep : Step jobs s t) :
    Relation.CutExpand (Prod.Lex (· < ·) Work.Remains) t.2.stages s.2.stages := by
  cases hstep with
  | start disk task waiting active slots hroom =>
    refine ⟨{(false, task.work)}, (true, task.work), by simp [Prod.lex_def], ?_⟩
    simp only [stages, List.map_append, List.map_cons, List.map_nil, ← Multiset.coe_add,
      ← Multiset.cons_coe, ← Multiset.singleton_add, Multiset.coe_nil, add_zero]
    ac_rfl
  | act disk waiting older slot c next younger slots =>
    refine ⟨{(false, next (disk.answer c).2)}, (false, .call c next), ?_, ?_⟩
    · simpa [Prod.lex_def] using Work.Remains.mk _
    · simp only [stages, List.map_append, List.map_cons, ← Multiset.coe_add,
        ← Multiset.cons_coe, ← Multiset.singleton_add]
      ac_rfl
  | collect disk waiting older slot a younger slots hwanted =>
    refine ⟨0, (false, .done a), by simp, ?_⟩
    simp only [stages, List.map_append, List.map_cons, ← Multiset.coe_add,
      ← Multiset.cons_coe, ← Multiset.singleton_add, add_zero]
    ac_rfl

/-- No pool goes on for ever. -/
theorem step_wellFounded (jobs : Nat) :
    WellFounded fun t s : Disk × Pool α => Step jobs s t := by
  have hstages := InvImage.wf (fun s : Disk × Pool α => s.2.stages)
    (wellFounded_lt.prod_lex Work.remains_wellFounded).cutExpand
  exact Subrelation.wf Step.cutExpand hstages

end Pool

end NodeLogs
