import NodeLogs.Proofs.Tree.History

/-! Making directories. It opens no file, and every file stays what and where it is. -/

namespace NodeLogs

namespace Disk

/-- What is no directory is where it was, and nothing of that kind is new. -/
theorem makeDir_others {disk : Disk} (hcwd : disk.HasCwd) (p : Path) {n : Node}
    (hn : ∀ es, n ≠ .dir es) (place : Place) :
    (disk.makeDir p).1.root.at? place = some n ↔ disk.root.at? place = some n := by
  have hu := makeDir_updates hcwd p
  unfold makeDir
  simp only [touched] at hu
  cases h : disk.locate false (withoutSlashes p) with
  | error e => rfl
  | ok s =>
    cases s with
    | found => rfl
    | free dir name =>
      obtain ⟨hdir, hnone⟩ := Node.locate_names hcwd h
      simp only [makeDir, h] at hu ⊢
      by_cases hplace : place = dir ++ [name]
      · subst hplace
        rw [Node.at?_put_self hdir, hnone]
        simpa using Ne.symm (hn [])
      · by_cases hd : disk.root.HasDir place
        · obtain ⟨es', hes'⟩ := hu.hasDir hd
          obtain ⟨es, hes⟩ := hd
          rw [hes', hes]
          simp [Ne.symm (hn _)]
        · rw [hu.others place (by simpa using hplace) hd]

end Disk

namespace Work

variable {α : Type}

/-- Work that does no more than make directories. -/
def OnlyDirs (w : Work α) : Prop :=
  w.Stays (fun _ => True) (fun c => ∃ p, c = .makeDir p ∨ c = .isDir p) fun _ => True

theorem Stays.settle {ok : Disk → Prop} {P : Call → Prop} {p : Path} (hp : P (.isDir p))
    (made : Except OsError Unit) : (makeDirs.settle p made).Stays ok P fun _ => True := by
  unfold makeDirs.settle
  split
  · exact .pure trivial
  · refine .bind (Q := fun _ => True) (.ask hp fun _ _ => trivial) fun isDir _ => ?_
    split <;> exact .pure trivial

/-- What lies above a directory is asked for only if the directory is found missing. -/
theorem Stays.makeDirs {ok : Disk → Prop} {P : Call → Prop} {p : Path} {above : List Path}
    (hmake : P (.makeDir p)) (hdir : P (.isDir p))
    (habove : (∃ disk, ok disk ∧ (disk.makeDir p).2 = .error .notFound) →
      (makeDirs above).Stays ok P fun _ => True) :
    (makeDirs (p :: above)).Stays ok P fun _ => True := by
  refine .bind (Q := fun made : Except OsError Unit => made = .error .notFound →
    ∃ disk, ok disk ∧ (disk.makeDir p).2 = .error .notFound)
    (.ask hmake fun disk hdisk hmissing => ⟨disk, hdisk, hmissing⟩) fun made hmade => ?_
  split
  · exact .pure trivial
  · refine .bind (habove (hmade rfl)) fun result _ => ?_
    split
    · exact .pure trivial
    · exact .bind (Q := fun _ => True) (.ask hmake fun _ _ => trivial) fun made _ =>
        .settle hdir made
  · exact .settle hdir _

theorem makeDirs_onlyDirs (ps : List Path) : (makeDirs ps).OnlyDirs := by
  induction ps with
  | nil => exact .pure trivial
  | cons p above ih => exact .makeDirs ⟨p, .inl rfl⟩ ⟨p, .inr rfl⟩ fun _ => ih

theorem makeAllDirs_onlyDirs (p : Path) : (makeAllDirs p).OnlyDirs :=
  makeDirs_onlyDirs p.ancestors

namespace OnlyDirs

variable {w : Work α} {disk : Disk}

theorem created_eq (hw : w.OnlyDirs) (disk : Disk) : w.created disk = [] := by
  refine List.filterMap_eq_nil_iff.mpr fun ⟨d, c⟩ he => ?_
  obtain ⟨-, p, rfl | rfl⟩ := Stays.mem_history hw (fun _ _ _ _ => trivial) trivial _ he <;> rfl

theorem opensNoLog (hw : w.OnlyDirs) : w.OpensNoLog := by
  refine Stays.mono hw (fun c hc p hp => ?_) fun _ _ => trivial
  obtain ⟨q, rfl | rfl⟩ := hc <;> cases hp

theorem others (hw : w.OnlyDirs) (hcwd : disk.HasCwd) {n : Node} (hn : ∀ es, n ≠ .dir es)
    (place : Place) : (w.run disk).1.root.at? place = some n ↔ disk.root.at? place = some n := by
  induction hw generalizing disk with
  | done => rfl
  | call hP _ ih =>
    obtain ⟨p, rfl | rfl⟩ := hP
    · have hcwd' := (Disk.makeDir_updates hcwd p).hasCwd hcwd
      exact (ih disk trivial hcwd').trans (Disk.makeDir_others hcwd p hn place)
    · exact ih disk trivial hcwd

theorem sameFiles (hw : w.OnlyDirs) (hcwd : disk.HasCwd) (P : Place → Prop) :
    Disk.SameFiles P disk (w.run disk).1 :=
  fun place _ _ _ _ => hw.others hcwd (by simp) place

end OnlyDirs

end Work

end NodeLogs
