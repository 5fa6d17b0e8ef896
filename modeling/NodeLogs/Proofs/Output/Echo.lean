import NodeLogs.Proofs.Output.Locations
import NodeLogs.Proofs.Output.Own
import NodeLogs.Proofs.Tree.Local
import NodeLogs.Proofs.Tree.Shape

/-! Writing the same outputs again. When work that writes to files it has opened itself is
done a second time, on the tree that was left the first time, it finds every file that it
opens there, empties it and fills it as before: as long as no write is refused, it comes to
the same result, and leaves the tree as it was. -/

namespace NodeLogs

namespace Disk

variable {disk other : Disk}

/-! ### One call again -/

/-- What is at a place is opened for writing on both disks, with the same handle. It is the
same then and no directory, and the second disk has it as it was, but for bytes. -/
structure OpensAgain (disk other : Disk) (p : Path) (place : Place) (handle : Handle) : Prop where
  place_eq : handle.place = place
  opened : (disk.create p).2 = .ok handle
  opened' : (other.create p).2 = .ok handle
  shape : (other.create p).1.root.shape = other.root.shape
  same : (other.create p).1.root.at? place = (disk.create p).1.root.at? place
  not_dir : ¬ (disk.create p).1.root.HasDir place

namespace LeadsTo

variable {p : Path} {place : Place} {name : Name} (h : disk.LeadsTo p place) (hplain : disk.Plain)
include h hplain

/-- What opening a file in a directory for writing does depends on what has its name there. -/
theorem create_child (hname : StepName name) : disk.create (p.child name) =
    if nameLimit < name.length then (disk, .error .nameTooLong)
    else match disk.root.at? (place ++ [name]) with
      | none =>
        ({ disk with root := disk.root.put (place ++ [name]) (.file disk.removals [] .normal) },
          .ok ⟨place ++ [name], disk.removals, 0⟩)
      | some (.file born _ access) =>
        ({ disk with root := disk.root.put (place ++ [name]) (.file born [] access) },
          .ok ⟨place ++ [name], born, 0⟩)
      | some (.dir _) => (disk, .error .isADirectory)
      | some _ => (disk, .ok ⟨place ++ [name], 0, 0⟩) := by
  have hslash := Path.endsInSlash_child hname p
  unfold create
  rw [h.locate_name hplain hname, Node.go_cons hplain.tree hname.ne_dot hname.ne_dots]
  by_cases hlong : nameLimit < name.length
  · simp [hslash, hlong]
  · simp only [hslash, hlong, Bool.false_eq_true, if_false]
    cases hn : disk.root.at? (place ++ [name]) with
    | none => rfl
    | some n => cases n <;> simp [hn]

/-- Opening a file that is there empties it, and the tree keeps its shape. -/
theorem create_emptied (hname : StepName name) (hshort : ¬ nameLimit < name.length) {born : Nat}
    {bytes : Bytes} {access : Access}
    (hfile : disk.root.at? (place ++ [name]) = some (.file born bytes access)) :
    (disk.create (p.child name)).2 = .ok ⟨place ++ [name], born, 0⟩ ∧
      (disk.create (p.child name)).1.root.shape = disk.root.shape ∧
      (disk.create (p.child name)).1.root.at? (place ++ [name]) = some (.file born [] access) := by
  rw [h.create_child hplain hname, if_neg hshort, hfile]
  exact ⟨rfl, Node.shape_put hfile (by unfold Node.shape; rfl),
    Node.at?_put_self h.hasDir name _ []⟩

omit hplain in
/-- Whether it was new or not, a file was empty when it was opened, and it is a file the second
time. -/
theorem opensAgain_of_file (h' : other.LeadsTo p place) (hplain' : other.Plain)
    (hname : StepName name) (hshort : ¬ nameLimit < name.length) {born : Nat} {access : Access}
    (hopen : disk.create (p.child name) =
      ({ disk with root := disk.root.put (place ++ [name]) (.file born [] access) },
        .ok ⟨place ++ [name], born, 0⟩))
    (hkind : ∀ n, (disk.create (p.child name)).1.root.at? (place ++ [name]) = some n →
      ∃ m, other.root.at? (place ++ [name]) = some m ∧ m.kind = n.kind) :
    OpensAgain disk other (p.child name) (place ++ [name]) ⟨place ++ [name], born, 0⟩ := by
  have hnew : (disk.create (p.child name)).1.root.at? (place ++ [name]) =
      some (.file born [] access) := by
    rw [hopen]
    exact Node.at?_put_self h.hasDir name _ []
  obtain ⟨m, hm, hmkind⟩ := hkind _ hnew
  obtain ⟨bytes, rfl⟩ := Node.kind_eq_file.mp hmkind
  obtain ⟨hopen', hshape, hnew'⟩ := h'.create_emptied hplain' hname hshort hm
  exact ⟨rfl, congrArg Prod.snd hopen, hopen', hshape, hnew'.trans hnew.symm,
    by simp [Node.HasDir, hnew]⟩

/-- A file that was opened for writing is opened as well when it is there, as a node of the
kind that it was. Then both files are empty. -/
theorem create_again (h' : other.LeadsTo p place) (hplain' : other.Plain)
    (hname : StepName name)
    (hkind : ∀ n, (disk.create (p.child name)).1.root.at? (place ++ [name]) = some n →
      ∃ m, other.root.at? (place ++ [name]) = some m ∧ m.kind = n.kind) :
    (∃ e, disk.create (p.child name) = (disk, .error e) ∧
      other.create (p.child name) = (other, .error e)) ∨
    ∃ handle, OpensAgain disk other (p.child name) (place ++ [name]) handle := by
  have hfirst := h.create_child hplain hname
  have hsecond := h'.create_child hplain' hname
  by_cases hshort : nameLimit < name.length
  · rw [if_pos hshort] at hfirst hsecond
    exact .inl ⟨.nameTooLong, hfirst, hsecond⟩
  rw [if_neg hshort] at hfirst hsecond
  cases hn : disk.root.at? (place ++ [name]) with
  | none =>
    rw [hn] at hfirst
    exact .inr ⟨_, h.opensAgain_of_file h' hplain' hname hshort hfirst hkind⟩
  | some n =>
    rw [hn] at hfirst
    cases n with
    | file born old access =>
      exact .inr ⟨_, h.opensAgain_of_file h' hplain' hname hshort hfirst hkind⟩
    | dir es =>
      obtain ⟨m, hm, hmkind⟩ := hkind _ (by rw [hfirst]; exact hn)
      obtain ⟨es', rfl⟩ := Node.kind_eq_dir.mp hmkind
      rw [hm] at hsecond
      exact .inl ⟨.isADirectory, hfirst, hsecond⟩
    | link target => exact absurd hn (Node.not_link hplain.tree _ _)
    | device kind =>
      obtain ⟨m, hm, hmkind⟩ := hkind _ (by rw [hfirst]; exact hn)
      obtain rfl := Node.kind_eq_device.mp hmkind
      rw [hm] at hsecond
      refine .inr ⟨⟨place ++ [name], 0, 0⟩, rfl, congrArg Prod.snd hfirst,
        congrArg Prod.snd hsecond, ?_, ?_, ?_⟩
      · rw [hsecond]
      · rw [hfirst, hsecond]
        exact hm.trans hn.symm
      · rw [hfirst]
        simp [Node.HasDir, hn]

end LeadsTo

/-- A write that is accepted does the same to the same node. -/
theorem write_again {h : Handle} (bs : Bytes) (htop : disk.root.HasDir [])
    (htop' : other.root.HasDir []) (hsame : other.root.at? h.place = disk.root.at? h.place)
    (hok : (disk.write h bs).2.refusal = none) (hok' : (other.write h bs).2.refusal = none) :
    (other.write h bs).2 = (disk.write h bs).2 ∧
      (other.write h bs).1.root.shape = other.root.shape ∧
      (other.write h bs).1.root.at? h.place = (disk.write h bs).1.root.at? h.place ∧
      ((disk.write h bs).1.root.HasDir h.place → disk.root.HasDir h.place) := by
  have hall {taken : Nat} (htaken : taken ≤ bs.length)
      (hnone : (if taken < bs.length then some OsError.noSpace else none) = none) :
      taken = bs.length := by
    split at hnone
    · cases hnone
    · omega
  rcases disk.write_cases h bs with ⟨hw, hnot⟩ | ⟨old, access, taken, writes, hold, htaken, hw⟩
  · rw [write_idle bs hsame hnot, hw]
    exact ⟨rfl, rfl, hsame, id⟩
  rcases other.write_cases h bs with ⟨-, hnot⟩ | ⟨old', access', taken', writes', hold', htaken', hw'⟩
  · exact absurd (hsame.trans hold) (hnot old access)
  obtain ⟨rfl, rfl⟩ : old = old' ∧ access = access' := by simpa [hold, hold'] using hsame.symm
  rw [hw] at hok
  rw [hw'] at hok'
  obtain rfl := (hall htaken hok).trans (hall htaken' hok').symm
  rw [hw, hw']
  have hnew := Node.at?_put_over htop hold (by simp)
    (.file h.born (splice old h.offset (bs.take taken)) access)
  refine ⟨rfl, Node.shape_put hold' (by unfold Node.shape; rfl), ?_, fun ⟨es, hes⟩ => ?_⟩
  · rw [hnew, Node.at?_put_over htop' hold' (by simp)]
  · rw [hnew] at hes
    cases hes

/-! ### The second time -/

/-- The first time work has come to a disk, and the second time to another. This one has the
tree that was left the first time, but for the bytes of files that work has opened: these
are what they had become the first time. -/
structure Echoes (last : Node) (own : Place → Prop) (disk other : Disk) : Prop where
  plain : disk.Plain
  plain' : other.Plain
  shape : other.root.shape = last.shape
  opened : ∀ place, own place → ¬ disk.root.HasDir place ∧ other.root.at? place = disk.root.at? place
  rest : ∀ place, ¬ own place → other.bytesAt? place = (last.at? place).bind Node.bytes?

namespace Echoes

variable {last : Node} {own own' : Place → Prop}

/-- A call that does the same to a file both times. -/
theorem answer (h : Echoes last own disk other) {c : Call} {place : Place}
    (htouched : disk.touched c = [place]) (htouched' : other.touched c = [place])
    (hown : ∀ q, own' q ↔ q = place ∨ own q)
    (hshape : (other.answer c).1.root.shape = other.root.shape)
    (hsame : (other.answer c).1.root.at? place = (disk.answer c).1.root.at? place)
    (hnot : ¬ (disk.answer c).1.root.HasDir place) :
    Echoes last own' (disk.answer c).1 (other.answer c).1 := by
  have hu := answer_updates h.plain.cwd c
  have hu' := answer_updates h.plain'.cwd c
  simp only [htouched, htouched', List.mem_singleton] at hu hu'
  refine ⟨h.plain.answer c, h.plain'.answer c, hshape.trans h.shape, fun q hq => ?_,
    fun q hq => ?_⟩
  · by_cases hplace : q = place
    · rw [hplace]
      exact ⟨hnot, hsame⟩
    · obtain ⟨hdir, hat⟩ := h.opened q (((hown q).mp hq).resolve_left hplace)
      have hdir' : ¬ other.root.HasDir q := by rwa [Node.HasDir, hat]
      have hfirst := hu.others q hplace hdir
      refine ⟨by rwa [Node.HasDir, hfirst], ?_⟩
      rw [hu'.others q hplace hdir', hfirst, hat]
  · have hplace : q ≠ place := fun heq => hq ((hown q).mpr (.inl heq))
    rw [hu'.bytesAt? hplace, h.rest q fun hown' => hq ((hown q).mpr (.inr hown'))]

theorem create (h : Echoes last own disk other) {p : Path} {place : Place} {handle : Handle}
    (hagain : OpensAgain disk other p place handle) :
    Echoes last (fun q => q = handle.place ∨ own q) (disk.create p).1 (other.create p).1 := by
  have htouched : disk.touched (.create p) = [place] := by
    simp [touched, hagain.opened, hagain.place_eq]
  have htouched' : other.touched (.create p) = [place] := by
    simp [touched, hagain.opened', hagain.place_eq]
  exact h.answer (c := .create p) htouched htouched' (fun q => by rw [hagain.place_eq])
    hagain.shape hagain.same hagain.not_dir

theorem write (h : Echoes last own disk other) {handle : Handle} (hplace : own handle.place)
    (bs : Bytes) (hok : (disk.write handle bs).2.refusal = none)
    (hok' : (other.write handle bs).2.refusal = none) :
    (other.write handle bs).2 = (disk.write handle bs).2 ∧
      Echoes last own (disk.write handle bs).1 (other.write handle bs).1 := by
  obtain ⟨hnot, hsame⟩ := h.opened _ hplace
  obtain ⟨hanswer, hshape, hafter, hdirs⟩ :=
    write_again bs h.plain.cwd.top h.plain'.cwd.top hsame hok hok'
  exact ⟨hanswer, h.answer (c := .write handle bs) rfl rfl
    (fun q => ⟨.inr, fun hq => hq.elim (· ▸ hplace) id⟩) hshape hafter (mt hdirs hnot)⟩

/-- What was there before the first time was over, and has been left, is there the second time as
a node of the same kind. -/
theorem exists_kind (h : Echoes last own disk other) {S : Place → Prop} {made later : Disk}
    (hu : Updates S made later) {place : Place} (hleft : last.at? place = later.root.at? place)
    {n : Node} (hn : made.root.at? place = some n) :
    ∃ m, other.root.at? place = some m ∧ m.kind = n.kind := by
  obtain ⟨m, hm, hmkind⟩ := hu.kinds _ n hn
  obtain ⟨m', hm', hshape⟩ := Node.exists_of_shape h.shape (hleft.trans hm)
  exact ⟨m', hm', (Node.kind_eq_of_shape hshape).trans hmkind⟩

/-- When the first time is over, the tree is what it has left. -/
theorem root_eq (h : Echoes last own disk other)
    (hlast : ∀ place, own place → last.at? place = disk.root.at? place) : other.root = last := by
  refine Node.eq_of_shape h.plain'.tree h.shape fun place => ?_
  by_cases hown : own place
  · rw [(h.opened place hown).2, hlast place hown]
  · exact h.rest place hown

end Echoes

end Disk

/-- Work that writes to files it has opened itself does the same again, and leaves the tree
that it has left before. -/
theorem Work.WritesOwn.again {α : Type} {dir : Path} {Q : (Place → Prop) → α → Prop}
    {own : Place → Prop} {w : Work α} (hw : w.WritesOwn dir Q own) {place : Place} {last : Node}
    {disk other : Disk} (h : Disk.Echoes last own disk other) (hdir : disk.LeadsTo dir place)
    (hdir' : other.LeadsTo dir place) (hown : ∀ q, own q → ∃ x : Outlet, q = place ++ [x.name])
    (hlast : ∀ x : Outlet, last.at? (place ++ [x.name]) =
      (w.run disk).1.root.at? (place ++ [x.name]))
    (hok : w.Accepted disk) (hok' : w.Accepted other) :
    (w.run other).2 = (w.run disk).2 ∧ (w.run other).1.root = last := by
  induction hw generalizing disk other with
  | done hQ =>
    refine ⟨rfl, h.root_eq fun q hq => ?_⟩
    obtain ⟨x, rfl⟩ := hown q hq
    exact hlast x
  | @create own next x _ _ ihok ihfail =>
    have hu := (next (disk.create (x.path dir)).2).run_updates
      (h.plain.answer (.create (x.path dir))).cwd
    have hpath : x.path dir = dir.child x.name := rfl
    obtain ⟨-, hok₂⟩ := accepted_call.mp hok
    obtain ⟨-, hok₂'⟩ := accepted_call.mp hok'
    simp only [run, Disk.answer, hpath] at hlast hok₂ hok₂' ⊢
    rcases hdir.create_again h.plain hdir' h.plain' x.stepName
      (fun n hn => h.exists_kind hu (hlast x) hn) with ⟨e, hfail, hfail'⟩ | ⟨handle, hagain⟩
    · rw [hfail] at hlast hok₂
      rw [hfail'] at hok₂'
      rw [hfail, hfail']
      exact ihfail e h hdir hdir' hown hlast hok₂ hok₂'
    · rw [hagain.opened] at hlast hok₂
      rw [hagain.opened'] at hok₂'
      rw [hagain.opened, hagain.opened']
      refine ihok handle (h.create hagain)
        (hdir.answer h.plain (.create (x.path dir))) (hdir'.answer h.plain' (.create (x.path dir)))
        (fun q hq => ?_) hlast hok₂ hok₂'
      rcases hq with rfl | hq
      · exact ⟨x, hagain.place_eq⟩
      · exact hown q hq
  | @write own handle bs next hplace _ ih =>
    obtain ⟨hok₁, hok₂⟩ := accepted_call.mp hok
    obtain ⟨hok₁', hok₂'⟩ := accepted_call.mp hok'
    obtain ⟨hanswer, hnext⟩ := h.write hplace bs hok₁ hok₁'
    simp only [run, Disk.answer] at hlast hok₂ hok₂' ⊢
    rw [hanswer] at hok₂' ⊢
    exact ih disk hnext (hdir.answer h.plain (.write handle bs))
      (hdir'.answer h.plain' (.write handle bs)) hown hlast hok₂ hok₂'

end NodeLogs
