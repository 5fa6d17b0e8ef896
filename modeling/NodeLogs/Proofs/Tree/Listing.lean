import NodeLogs.Proofs.Tree.History
import NodeLogs.Proofs.Tree.Proper

/-! Directories listed in any order. A system need not list the entries of a directory in the
order in which it holds them, nor twice in the same order. What work may end in then is a
relation, and its run is one of the ends. Work is orderless if there are no others. -/

namespace NodeLogs

namespace Disk

/-- What a call may be answered: a directory may be listed in any order. -/
def MayAnswer (disk : Disk) : (c : Call) → c.Answer → Prop
  | .list p, .ok es => ∃ held, disk.list p = .ok held ∧ es.Perm held
  | c, answer => answer = (disk.answer c).2

variable {disk : Disk}

theorem mayAnswer_self (disk : Disk) (c : Call) : disk.MayAnswer c (disk.answer c).2 := by
  cases c with
  | list p =>
    show disk.MayAnswer (.list p) (disk.list p)
    cases hlist : disk.list p with
    | error e => exact hlist.symm
    | ok es => exact ⟨es, hlist, .refl es⟩
  | isDir | isFile | makeDir | create | openRead | read | write => rfl

/-- All other calls have one answer. -/
theorem eq_of_mayAnswer {c : Call} (hc : ∀ p, c ≠ .list p) {answer : c.Answer}
    (h : disk.MayAnswer c answer) : answer = (disk.answer c).2 := by
  cases c with
  | list p => exact absurd rfl (hc p)
  | isDir | isFile | makeDir | create | openRead | read | write => exact h

end Disk

namespace Work

variable {α β : Type}

/-- What work may end in where directories may be listed in any order. -/
inductive MayEnd : Work α → Disk → Disk × α → Prop
  | done (a disk) : MayEnd (.done a) disk (disk, a)
  | call {c next disk answer r} (hanswer : disk.MayAnswer c answer)
    (hnext : MayEnd (next answer) (disk.answer c).1 r) : MayEnd (.call c next) disk r

/-- The ends of a bind come from the ends of its first part. -/
theorem mayEnd_bind {w : Work α} {f : α → Work β} {disk : Disk} {r : Disk × β} :
    (w >>= f).MayEnd disk r ↔ ∃ s, w.MayEnd disk s ∧ (f s.2).MayEnd s.1 r := by
  constructor
  · intro h
    induction w generalizing disk with
    | done a => exact ⟨(disk, a), .done a disk, h⟩
    | call c next ih =>
      cases h with
      | call hanswer hnext =>
        obtain ⟨s, hs, hr⟩ := ih _ hnext
        exact ⟨s, .call hanswer hs, hr⟩
  · rintro ⟨s, hs, hr⟩
    induction hs with
    | done a disk => exact hr
    | call hanswer _ ih => exact .call hanswer (ih hr)

/-- To list directories as they are held is one way to go. -/
theorem mayEnd_run (w : Work α) (disk : Disk) : w.MayEnd disk (w.run disk) := by
  induction w generalizing disk with
  | done a => exact .done a disk
  | call c next ih => exact .call (disk.mayAnswer_self c) (ih _ _)

/-- However directories are listed, work on a disk has one end. -/
def Settled (w : Work α) (disk : Disk) : Prop :=
  ∀ r, w.MayEnd disk r ↔ r = w.run disk

namespace Settled

variable {w : Work α} {disk : Disk}

theorem intro (h : ∀ r, w.MayEnd disk r → r = w.run disk) : w.Settled disk :=
  fun r => ⟨h r, fun hr => hr ▸ w.mayEnd_run disk⟩

theorem pure (a : α) (disk : Disk) : (Pure.pure a : Work α).Settled disk :=
  .intro fun _ hr => by cases hr; rfl

theorem bind {f : α → Work β} (hw : w.Settled disk)
    (hf : (f (w.run disk).2).Settled (w.run disk).1) : (w >>= f).Settled disk := by
  refine .intro fun r hr => ?_
  obtain ⟨s, hs, hr⟩ := mayEnd_bind.mp hr
  obtain rfl := (hw s).mp hs
  rw [run_bind]
  exact (hf r).mp hr

/-- A listing may be followed by work that comes to the same in any order of it. -/
theorem list {p : Path} {f : Except OsError (List (Name × Bool)) → Work β}
    (hf : ∀ listed, (f listed).Settled disk)
    (hperm : ∀ held es, disk.list p = .ok held → es.Perm held →
      (f (.ok es)).run disk = (f (.ok held)).run disk) :
    (Work.ask (.list p) >>= f).Settled disk := by
  refine .intro fun r hr => ?_
  obtain ⟨s, hs, hr⟩ := mayEnd_bind.mp hr
  cases hs with
  | @call _ _ _ answer _ hanswer hdone =>
    cases hdone
    obtain rfl := (hf answer r).mp hr
    rw [run_bind, run_ask]
    cases answer with
    | error e =>
      have hlist : Except.error e = disk.list p := hanswer
      simp [Disk.answer, ← hlist]
    | ok es =>
      obtain ⟨held, hlist, hes⟩ := hanswer
      simpa [Disk.answer, hlist] using hperm held es hlist hes

end Settled

/-- Calls keep names apart, and so does work. -/
theorem run_namesOnce (w : Work α) {disk : Disk} (h : disk.root.namesOnce) :
    (w.run disk).1.root.namesOnce := by
  induction w generalizing disk with
  | done a => exact h
  | call c next ih => exact ih _ (Disk.answer_namesOnce h c)

/-- Wherever names come once, work has one end, and its result is of a kind. -/
def Orderless (Q : α → Prop) (w : Work α) : Prop :=
  ∀ disk : Disk, disk.root.namesOnce → Q (w.run disk).2 ∧ w.Settled disk

namespace Orderless

variable {Q : α → Prop} {R : β → Prop} {w : Work α}

theorem pure {a : α} (h : Q a) : (Pure.pure a : Work α).Orderless Q :=
  fun disk _ => ⟨h, .pure a disk⟩

theorem bind {f : α → Work β} (hw : w.Orderless Q) (hf : ∀ a, Q a → (f a).Orderless R) :
    (w >>= f).Orderless R := by
  intro disk hdisk
  obtain ⟨hQ, hsettled⟩ := hw disk hdisk
  obtain ⟨hR, hlater⟩ := hf _ hQ _ (w.run_namesOnce hdisk)
  rw [run_bind]
  exact ⟨hR, hsettled.bind hlater⟩

/-- Work that lists nothing. -/
theorem of_stays {P : Call → Prop} (hw : w.Stays (fun _ => True) P Q)
    (hP : ∀ c, P c → ∀ p, c ≠ .list p) : w.Orderless Q := by
  intro disk hdisk
  refine ⟨(hw.run (fun _ _ _ _ => trivial) trivial).1, .intro fun r hr => ?_⟩
  clear hdisk
  induction hr with
  | done => rfl
  | call hanswer _ ih =>
    cases hw with
    | call hc hnext =>
      obtain rfl := Disk.eq_of_mayAnswer (hP _ hc) hanswer
      exact ih (hnext _ trivial)

theorem ask {c : Call} (hc : ∀ p, c ≠ .list p) : (Work.ask c).Orderless fun _ => True :=
  of_stays (P := fun c => ∀ p, c ≠ .list p) (.ask hc fun _ _ => trivial) fun _ => id

/-- A listing may be followed by work that is the same in any order of it. -/
theorem list {p : Path} {f : Except OsError (List (Name × Bool)) → Work β}
    (hf : ∀ listed, (f listed).Orderless R)
    (hperm : ∀ held es, (held.map Prod.fst).Nodup → es.Perm held → f (.ok es) = f (.ok held)) :
    (Work.ask (.list p) >>= f).Orderless R := by
  intro disk hdisk
  refine ⟨?_, .list (fun listed => (hf listed disk hdisk).2) fun held es hlist hes => ?_⟩
  · rw [run_bind]
    exact (hf _ disk hdisk).1
  · rw [hperm held es (Disk.list_names hdisk hlist).1 hes]

end Orderless

end Work

end NodeLogs
