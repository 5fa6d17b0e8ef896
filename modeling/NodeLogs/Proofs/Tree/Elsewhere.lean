import NodeLogs.Proofs.Tree.History
import NodeLogs.Proofs.Tree.Local

/-! Writes at one place and at others. What a write comes to depends on the node at its place and
on what the device does next there. Writes elsewhere change neither, and at the place of a device
they change nothing at all. -/

namespace NodeLogs

/-- A device stands at the place. -/
def Node.HasDevice (n : Node) (place : Place) : Prop :=
  ∃ kind, n.at? place = some (.device kind)

namespace Disk

variable {disk other later last : Disk} {place : Place}

theorem Updates.hasDevice {S : Place → Prop} (h : Updates S disk later)
    (hdevice : disk.root.HasDevice place) : later.root.HasDevice place := by
  obtain ⟨kind, hn⟩ := hdevice
  obtain ⟨m, hm, hkind⟩ := h.kinds place _ hn
  exact ⟨kind, Node.kind_eq_device.mp hkind ▸ hm⟩

theorem Updates.hasFile {S : Place → Prop} (h : Updates S disk later)
    (hfile : disk.root.HasFile place) : later.root.HasFile place := by
  obtain ⟨born, bytes, access, hn⟩ := hfile
  obtain ⟨m, hm, hkind⟩ := h.kinds place _ hn
  obtain ⟨bytes', rfl⟩ := Node.kind_eq_file.mp hkind
  exact ⟨born, bytes', access, hm⟩

/-! ### Disks that are the same at a place -/

/-- At a place, two disks have the same node, and do the same to writes. -/
structure SameAt (place : Place) (disk other : Disk) : Prop where
  node : other.root.at? place = disk.root.at? place
  writes : itemsFor place other.faults.writes = itemsFor place disk.faults.writes

namespace SameAt

theorem refl (place : Place) (disk : Disk) : SameAt place disk disk :=
  ⟨rfl, rfl⟩

theorem trans (h : SameAt place disk later) (h' : SameAt place later last) :
    SameAt place disk last :=
  ⟨h'.node.trans h.node, h'.writes.trans h.writes⟩

theorem bytesAt? (h : SameAt place disk other) : other.bytesAt? place = disk.bytesAt? place := by
  rw [Disk.bytesAt?, Disk.bytesAt?, h.node]

theorem hasDir (h : SameAt place disk other) :
    other.root.HasDir place ↔ disk.root.HasDir place := by
  unfold Node.HasDir
  rw [h.node]

end SameAt

/-- A write takes as much on either of two disks that are the same at its place, and leaves them
so. -/
theorem write_same {h : Handle} (hcwd : disk.HasCwd) (hcwd' : other.HasCwd)
    (hsame : SameAt h.place disk other) (bs : Bytes) :
    (other.write h bs).2 = (disk.write h bs).2 ∧
      SameAt h.place (disk.write h bs).1 (other.write h bs).1 := by
  by_cases hfile : ∃ old access, disk.root.at? h.place = some (.file h.born old access)
  · obtain ⟨old, access, hn⟩ := hfile
    have hn' : other.root.at? h.place = some (.file h.born old access) := hsame.node.trans hn
    have hsize : other.writeSize h bs = disk.writeSize h bs := by
      simp only [writeSize, firstFor?_eq_head?, hsame.writes]
    rw [write_file bs hn, write_file bs hn', hsize]
    refine ⟨rfl, ?_, itemsFor_dropFor_congr hsame.writes h.place⟩
    exact (Node.at?_put_over hcwd'.top hn' (by simp) _).trans
      (Node.at?_put_over hcwd.top hn (by simp) _).symm
  · have hnot : ∀ old access, disk.root.at? h.place ≠ some (.file h.born old access) :=
      fun old access hn => hfile ⟨old, access, hn⟩
    rw [write_idle bs hsame.node hnot, write_idle bs rfl hnot]
    exact ⟨rfl, hsame⟩

/-- A write is not noticed elsewhere, nor at the place of a device. -/
theorem write_elsewhere {h : Handle} (hcwd : disk.HasCwd) (hdir : ¬ disk.root.HasDir place)
    (hdevice : h.place = place → disk.root.HasDevice place) (bs : Bytes) :
    SameAt place disk (disk.write h bs).1 := by
  by_cases hfile : ∃ old access, disk.root.at? h.place = some (.file h.born old access)
  · obtain ⟨old, access, hn⟩ := hfile
    have hne : place ≠ h.place := by
      rintro rfl
      obtain ⟨kind, hkind⟩ := hdevice rfl
      cases hn.symm.trans hkind
    refine ⟨(disk.write_updates hcwd h bs).others place hne hdir, ?_⟩
    rw [write_file bs hn]
    exact itemsFor_dropFor hne
  · rw [write_idle bs rfl fun old access hn => hfile ⟨old, access, hn⟩]
    exact .refl _ _

end Disk

/-! ### Work that writes -/

namespace Work.WritesTo

open Disk

variable {α : Type} {Q : α → Prop} {w : Work α} {disk other : Disk} {place : Place}

/-- Work at one place comes to the same on disks that are the same there. -/
theorem run_same (hw : w.WritesTo (· = place) Q) (hcwd : disk.HasCwd) (hcwd' : other.HasCwd)
    (hsame : SameAt place disk other) :
    (w.run other).2 = (w.run disk).2 ∧ SameAt place (w.run disk).1 (w.run other).1 := by
  unfold WritesTo at hw
  induction hw generalizing disk other with
  | done => exact ⟨rfl, hsame⟩
  | @call c next hc _ ih =>
    obtain ⟨h, bs, rfl, rfl⟩ := hc
    obtain ⟨hanswer, hlater⟩ := write_same hcwd hcwd' hsame bs
    have hrun := ih disk trivial ((write_updates hcwd h bs).hasCwd hcwd)
      ((write_updates hcwd' h bs).hasCwd hcwd') hlater
    have hother : (call (.write h bs) next).run other =
        (next (disk.write h bs).2).run (other.write h bs).1 := by
      rw [← hanswer]
      rfl
    rw [hother]
    exact hrun

/-- Work elsewhere is not noticed, nor is work at the place of a device. -/
theorem run_elsewhere {S : Place → Prop} (hw : w.WritesTo S Q) (hcwd : disk.HasCwd)
    (hdir : ¬ disk.root.HasDir place) (hdevice : S place → disk.root.HasDevice place) :
    SameAt place disk (w.run disk).1 := by
  unfold WritesTo at hw
  induction hw generalizing disk with
  | done => exact .refl _ _
  | @call c next hc _ ih =>
    obtain ⟨h, bs, rfl, hS⟩ := hc
    have hsame : SameAt place disk (disk.write h bs).1 :=
      write_elsewhere hcwd hdir (fun hplace => hdevice (hplace ▸ hS)) bs
    have hu := write_updates hcwd h bs
    exact hsame.trans (ih disk trivial (hu.hasCwd hcwd) (fun hd => hdir (hsame.hasDir.mp hd))
      fun hplace => hu.hasDevice (hdevice hplace))

end Work.WritesTo

end NodeLogs
