import NodeLogs.Tree.Work

/-! Several pieces of work on one disk at the same time. A pool keeps a limited
number of tasks active. While there is room, the next task that waits is started.
When there is none, or when no task waits any more, the result of a task that is
done goes into its slot. Active tasks make their calls in turns, in any order:
`Step` says what may happen next. `workOff` takes the oldest task first, which is
one way to go, as `reaches_workOff` states. -/

namespace NodeLogs

/-- A piece of work and the slot that its result is for. -/
structure Task (α : Type) where
  slot : Nat
  work : Work α

structure Pool (α : Type) where
  waiting : List (Task α)
  active : List (Task α)
  slots : List (Option α)

namespace Pool

variable {α : Type}

/-- All work waits, and there is a slot for each piece. -/
def ofWork (works : List (Work α)) : Pool α where
  waiting := works.zipIdx.map fun (work, slot) => ⟨slot, work⟩
  active := []
  slots := works.map fun _ => none

/-- How many tasks may be active: at least one. -/
def room (jobs : Nat) : Nat :=
  max jobs 1

theorem room_pos (jobs : Nat) : 0 < room jobs :=
  Nat.lt_of_lt_of_le Nat.one_pos (Nat.le_max_right jobs 1)

/-! ### One task after another -/

/-- Sees active tasks through, the oldest first. -/
def seeThrough : List (Task α) → List (Option α) → Work (List (Option α))
  | [], slots => pure slots
  | oldest :: active, slots => do
    let a ← oldest.work
    seeThrough active (slots.set oldest.slot (some a))

/-- Starts tasks; if there is no room, the oldest that is active is seen through first. -/
def startAll (jobs : Nat) :
    List (Task α) → List (Task α) → List (Option α) → Work (List (Option α))
  | [], active, slots => seeThrough active slots
  | task :: waiting, active, slots =>
    if active.length < room jobs then startAll jobs waiting (active ++ [task]) slots
    else
      match active with
      | [] => startAll jobs waiting [task] slots
      | oldest :: active => do
        let a ← oldest.work
        startAll jobs waiting (active ++ [task]) (slots.set oldest.slot (some a))

/-- Works a pool off, the oldest active task first. -/
def workOff (jobs : Nat) (pool : Pool α) : Work (List (Option α)) :=
  startAll jobs pool.waiting pool.active pool.slots

/-! ### Tasks in turns -/

/-- What may happen next on a disk where a pool is at work. -/
inductive Step (jobs : Nat) : Disk × Pool α → Disk × Pool α → Prop where
  /-- The next task is started where there is room. -/
  | start (disk task waiting active slots) (hroom : active.length < room jobs) :
    Step jobs (disk, ⟨task :: waiting, active, slots⟩) (disk, ⟨waiting, active ++ [task], slots⟩)
  /-- An active task makes its next call. -/
  | act (disk waiting older slot c next younger slots) :
    Step jobs (disk, ⟨waiting, older ++ ⟨slot, .call c next⟩ :: younger, slots⟩)
      ((disk.answer c).1,
        ⟨waiting, older ++ ⟨slot, next (disk.answer c).2⟩ :: younger, slots⟩)
  /-- A task that is done leaves its result, if its place is wanted or nothing waits. -/
  | collect (disk waiting older slot a younger slots)
    (hwanted : waiting = [] ∨ room jobs ≤ older.length + younger.length + 1) :
    Step jobs (disk, ⟨waiting, older ++ ⟨slot, .done a⟩ :: younger, slots⟩)
      (disk, ⟨waiting, older ++ younger, slots.set slot (some a)⟩)

/-- What may happen in any number of steps. -/
inductive Reaches (jobs : Nat) : Disk × Pool α → Disk × Pool α → Prop where
  | refl (s) : Reaches jobs s s
  | step {s t u} (first : Step jobs s t) (later : Reaches jobs t u) : Reaches jobs s u

/-- Nothing waits and nothing is active. -/
def isOver (pool : Pool α) : Bool :=
  pool.waiting.isEmpty && pool.active.isEmpty

theorem Reaches.trans {jobs : Nat} {s t u : Disk × Pool α} (hst : Reaches jobs s t)
    (htu : Reaches jobs t u) : Reaches jobs s u := by
  induction hst with
  | refl => exact htu
  | step first _ ih => exact .step first (ih htu)

/-- An active task may make all its calls with none of another task between them. -/
theorem reaches_done (jobs : Nat) (disk : Disk) (waiting older younger : List (Task α))
    (slot : Nat) (work : Work α) (slots : List (Option α)) :
    Reaches jobs (disk, ⟨waiting, older ++ ⟨slot, work⟩ :: younger, slots⟩)
      ((work.run disk).1, ⟨waiting, older ++ ⟨slot, .done (work.run disk).2⟩ :: younger, slots⟩) := by
  induction work generalizing disk with
  | done a => exact .refl _
  | call c next ih => exact .step (.act ..) (ih _ _)

/-- The oldest task may be seen through where its place is wanted. -/
theorem reaches_oldest (jobs : Nat) (disk : Disk) (waiting active : List (Task α))
    (oldest : Task α) (slots : List (Option α))
    (hwanted : waiting = [] ∨ room jobs ≤ active.length + 1) :
    Reaches jobs (disk, ⟨waiting, oldest :: active, slots⟩)
      ((oldest.work.run disk).1,
        ⟨waiting, active, slots.set oldest.slot (some (oldest.work.run disk).2)⟩) :=
  (reaches_done jobs disk waiting [] active oldest.slot oldest.work slots).trans
    (.step (.collect _ waiting [] oldest.slot _ active slots (by simpa using hwanted)) (.refl _))

theorem reaches_seeThrough (jobs : Nat) (disk : Disk) (active : List (Task α))
    (slots : List (Option α)) :
    Reaches jobs (disk, ⟨[], active, slots⟩)
      (((seeThrough active slots).run disk).1, ⟨[], [], ((seeThrough active slots).run disk).2⟩) := by
  induction active generalizing disk slots with
  | nil => exact .refl _
  | cons oldest active ih =>
    simp only [seeThrough, Work.run_bind]
    exact (reaches_oldest jobs disk [] active oldest slots (.inl rfl)).trans (ih _ _)

theorem reaches_startAll (jobs : Nat) (disk : Disk) (waiting active : List (Task α))
    (slots : List (Option α)) (hroom : active.length ≤ room jobs) :
    Reaches jobs (disk, ⟨waiting, active, slots⟩)
      (((startAll jobs waiting active slots).run disk).1,
        ⟨[], [], ((startAll jobs waiting active slots).run disk).2⟩) := by
  induction waiting generalizing disk active slots with
  | nil => exact reaches_seeThrough jobs disk active slots
  | cons task waiting ih =>
    unfold startAll
    split
    next h => exact .step (.start _ _ _ _ _ h) (ih _ _ _ (by simp; omega))
    next h =>
      cases active with
      | nil => exact absurd (room_pos jobs) h
      | cons oldest active =>
        simp only [List.length_cons] at h hroom
        simp only [Work.run_bind]
        refine (reaches_oldest jobs disk (task :: waiting) active oldest slots (.inr (by omega))).trans
          (.step (.start _ _ _ _ _ (by omega)) (ih _ _ _ (by simp; omega)))

/-- To work a pool off is one way to go on until nothing is left to do. -/
theorem reaches_workOff (jobs : Nat) (disk : Disk) (works : List (Work α)) :
    Reaches jobs (disk, ofWork works)
      ((((ofWork works).workOff jobs).run disk).1,
        ⟨[], [], (((ofWork works).workOff jobs).run disk).2⟩) :=
  reaches_startAll jobs disk _ [] _ (Nat.zero_le _)

end Pool

end NodeLogs
