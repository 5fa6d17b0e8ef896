import NodeLogs.Proofs.Tree.Changes

/-! Trees that grow. All that is there keeps its place and its kind; directories may come to
be at some places, and files at others, and no other file is given other bytes. -/

namespace NodeLogs

namespace Disk

/-- What may come to be at a place: a directory at one kind of places, a file at another. -/
inductive MayStand (dirs files : Place → Prop) (place : Place) : Node → Prop
  | dir (es) (h : dirs place) : MayStand dirs files place (.dir es)
  | file (born bytes access) (h : files place) : MayStand dirs files place (.file born bytes access)

/-- From one disk to a later one nothing is lost, what is new stands where it may, and the other
files keep their bytes. -/
structure Grows (dirs files : Place → Prop) (disk later : Disk) : Prop where
  kinds : ∀ place n, disk.root.at? place = some n →
    ∃ m, later.root.at? place = some m ∧ m.kind = n.kind
  made : ∀ place n, disk.root.at? place = none → later.root.at? place = some n →
    MayStand dirs files place n
  bytes : ∀ place, ¬ files place → later.bytesAt? place = disk.bytesAt? place

namespace Grows

variable {dirs files : Place → Prop} {disk later last : Disk}

theorem refl (dirs files : Place → Prop) (disk : Disk) : Grows dirs files disk disk where
  kinds _ n hn := ⟨n, hn, rfl⟩
  made _ n hnone hn := by
    rw [hnone] at hn
    cases hn
  bytes _ _ := rfl

theorem trans (h : Grows dirs files disk later) (h' : Grows dirs files later last) :
    Grows dirs files disk last where
  kinds place n hn := by
    obtain ⟨m, hm, hkind⟩ := h.kinds place n hn
    obtain ⟨m', hm', hkind'⟩ := h'.kinds place m hm
    exact ⟨m', hm', hkind'.trans hkind⟩
  made place n hnone hn := by
    cases hm : later.root.at? place with
    | none => exact h'.made place n hm hn
    | some m =>
      obtain ⟨m', hm', hkind⟩ := h'.kinds place m hm
      obtain rfl : m' = n := Option.some.inj (hm'.symm.trans hn)
      cases h.made place m hnone hm with
      | dir es hplace =>
        obtain ⟨es', rfl⟩ := Node.kind_eq_dir.mp hkind
        exact .dir es' hplace
      | file born bytes access hplace =>
        obtain ⟨bytes', rfl⟩ := Node.kind_eq_file.mp hkind
        exact .file born bytes' access hplace
  bytes place hplace := (h'.bytes place hplace).trans (h.bytes place hplace)

/-- What is changed at some places only need be looked at there. -/
theorem of_updates {S : Place → Prop} (hu : Updates S disk later)
    (hmade : ∀ place n, S place → disk.root.at? place = none → later.root.at? place = some n →
      MayStand dirs files place n)
    (hbytes : ∀ place, S place → ¬ files place → later.bytesAt? place = disk.bytesAt? place) :
    Grows dirs files disk later where
  kinds := hu.kinds
  made place n hnone hn := by
    by_cases hplace : S place
    · exact hmade place n hplace hnone hn
    · rw [hu.others place hplace (by simp [Node.HasDir, hnone]), hnone] at hn
      cases hn
  bytes place hfile := by
    by_cases hplace : S place
    · exact hbytes place hplace hfile
    · exact hu.bytesAt? hplace

/-- Making a directory where none is. -/
theorem makeDir (hcwd : disk.HasCwd) {p : Path}
    (hdir : ∀ place name, disk.locate false (withoutSlashes p) = .ok (.free place name) →
      dirs (place ++ [name])) : Grows dirs files disk (disk.makeDir p).1 := by
  have hu := makeDir_updates hcwd p
  unfold Disk.makeDir at hu ⊢
  simp only [touched] at hu
  cases hloc : disk.locate false (withoutSlashes p) with
  | error e => exact .refl dirs files disk
  | ok spot =>
    cases spot with
    | found place => exact .refl dirs files disk
    | free place name =>
      obtain ⟨hparent, hnone⟩ := Node.locate_names hcwd hloc
      have hnew := Node.at?_put_self hparent name (.dir []) []
      rw [hloc] at hu
      refine of_updates hu (fun q n hq _ hn => ?_) fun q hq _ => ?_
      all_goals obtain rfl := List.mem_singleton.mp hq
      · obtain rfl := Option.some.inj (hn.symm.trans hnew)
        exact .dir [] (hdir place name hloc)
      · simp only [bytesAt?, hnone, hnew]
        rfl

/-- Opening a file for writing. -/
theorem create (hcwd : disk.HasCwd) {p : Path}
    (hfile : ∀ h, (disk.create p).2 = .ok h → files h.place) :
    Grows dirs files disk (disk.create p).1 := by
  have hu := create_updates hcwd p
  rcases disk.create_cases p with ⟨e, hc⟩ | ⟨place, name, hloc, hc⟩ |
    ⟨place, born, bytes, access, -, hold, hc⟩ | ⟨place, -, -, hc⟩
  all_goals simp only [touched, hc] at hu hfile ⊢
  · exact .refl dirs files disk
  · obtain ⟨hparent, -⟩ := Node.locate_names hcwd hloc
    have hnew := Node.at?_put_self hparent name (.file disk.removals [] .normal) []
    refine of_updates hu (fun q n hq _ hn => ?_) fun q hq hnot => ?_
    all_goals obtain rfl := List.mem_singleton.mp hq
    · obtain rfl := Option.some.inj (hn.symm.trans hnew)
      exact .file _ [] .normal (hfile _ rfl)
    · exact absurd (hfile _ rfl) hnot
  · refine of_updates hu (fun q n hq hnone _ => ?_) fun q hq hnot => ?_
    all_goals obtain rfl := List.mem_singleton.mp hq
    · rw [hold] at hnone
      cases hnone
    · exact absurd (hfile _ rfl) hnot
  · exact .refl dirs files disk

theorem write (hcwd : disk.HasCwd) {h : Handle} (bs : Bytes) (hfile : files h.place) :
    Grows dirs files disk (disk.write h bs).1 := by
  rcases disk.write_cases h bs with ⟨hw, -⟩ | ⟨old, access, taken, writes, hold, -, -⟩
  · rw [hw]
    exact .refl dirs files disk
  · refine of_updates (write_updates hcwd h bs) (fun q n hq hnone _ => ?_) fun q hq hnot => ?_
    all_goals obtain rfl : q = h.place := hq
    · rw [hold] at hnone
      cases hnone
    · exact absurd hfile hnot

/-- A call that makes directories and files at such places only. -/
theorem answer (hcwd : disk.HasCwd) {c : Call}
    (hdir : ∀ p place name, c = .makeDir p →
      disk.locate false (withoutSlashes p) = .ok (.free place name) → dirs (place ++ [name]))
    (hcreate : ∀ p h, c = .create p → (disk.create p).2 = .ok h → files h.place)
    (hwrite : ∀ h bs, c = .write h bs → files h.place) :
    Grows dirs files disk (disk.answer c).1 := by
  cases c with
  | isDir | isFile | list | openRead => exact .refl dirs files disk
  | makeDir p => exact .makeDir hcwd fun place name => hdir p place name rfl
  | create p => exact .create hcwd fun h => hcreate p h rfl
  | write h bs => exact .write hcwd bs (hwrite h bs rfl)
  | read h limit =>
    exact .of_updates (answer_updates hcwd (.read h limit)) (fun _ _ hq => by cases hq)
      fun _ hq => by cases hq

end Grows

end Disk

end NodeLogs
