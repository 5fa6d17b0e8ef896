import NodeLogs.Proofs.Tree.Local
import NodeLogs.Proofs.Tree.Unused
import NodeLogs.Settings.Load

/-! Reading a settings file. That leaves the tree alone, and what comes of it can be told from
what the file holds, however little each read delivers. -/

namespace NodeLogs

/-! ### The tree -/

namespace Disk

/-- Nothing has changed but what is known of reads and writes to come. -/
def SameTree (disk later : Disk) : Prop :=
  ∃ faults, later = { disk with faults }

namespace SameTree

variable {disk later last : Disk}

theorem refl (disk : Disk) : SameTree disk disk :=
  ⟨disk.faults, rfl⟩

theorem trans (h : SameTree disk later) (h' : SameTree later last) : SameTree disk last := by
  obtain ⟨faults, rfl⟩ := h
  obtain ⟨faults', rfl⟩ := h'
  exact ⟨faults', rfl⟩

theorem isDir_eq (h : SameTree disk later) (p : Path) : later.isDir p = disk.isDir p := by
  obtain ⟨faults, rfl⟩ := h
  rfl

theorem hasCwd (h : SameTree disk later) (hcwd : disk.HasCwd) : later.HasCwd := by
  obtain ⟨faults, rfl⟩ := h
  exact hcwd

theorem alikeBut {other otherLater : Disk} {place : Place} (h : SameTree disk later)
    (h' : SameTree other otherLater) (halike : disk.AlikeBut place other)
    (hfaults : otherLater.faults = later.faults) : later.AlikeBut place otherLater := by
  obtain ⟨faults, rfl⟩ := h
  obtain ⟨faults', rfl⟩ := h'
  exact ⟨halike.shape, halike.bytes, halike.cwd, halike.removals, hfaults⟩

theorem answer (h : SameTree disk later) {c : Call}
    (hc : (∃ p, c = .openRead p) ∨ ∃ h limit, c = .read h limit) :
    SameTree disk (later.answer c).1 := by
  obtain ⟨p, rfl⟩ | ⟨handle, limit, rfl⟩ := hc
  · exact h
  · obtain ⟨reads, hread⟩ := later.read_disk handle limit
    exact h.trans ⟨_, hread⟩

end SameTree

end Disk

namespace Work

/-- Work that only opens files for reading and reads them. -/
def OnlyReads {α : Type} (w : Work α) : Prop :=
  w.Stays (fun _ => True) (fun c => (∃ p, c = .openRead p) ∨ ∃ h limit, c = .read h limit)
    fun _ => True

theorem OnlyReads.sameTree {α : Type} {w : Work α} (hw : w.OnlyReads) (disk : Disk) :
    disk.SameTree (w.run disk).1 :=
  have hstays : w.Stays disk.SameTree _ _ := hw.onDisks fun _ _ => trivial
  (hstays.run (fun _ _ hlater hc => hlater.answer hc) (.refl disk)).2

theorem readRest_onlyReads (steps : Nat) (h : Handle) (got : Bytes) :
    (readRest steps h got).OnlyReads := by
  induction steps generalizing h got with
  | zero => exact .pure trivial
  | succ steps ih =>
    refine .bind (.ask (Q := fun _ => True) (.inr ⟨h, 8192, rfl⟩) fun _ _ => trivial) fun r _ => ?_
    rcases r with e | ⟨_ | ⟨b, bs⟩, h⟩
    · exact .pure trivial
    · exact .pure trivial
    · exact ih h _

theorem readAll_onlyReads (p : Path) : (readAll p).OnlyReads := by
  refine .bind (.ask (Q := fun _ => True) (.inl ⟨p, rfl⟩) fun _ _ => trivial) fun r _ => ?_
  rcases r with e | ⟨h, size⟩
  · exact .pure trivial
  · exact readRest_onlyReads (size + 1) h []

end Work

theorem FileSettings.load_onlyReads (p : Path) : (load p).OnlyReads := by
  refine .bind (Work.readAll_onlyReads p) fun r _ => ?_
  cases r with
  | error e => exact .pure trivial
  | ok bs =>
    dsimp only
    split
    · exact .pure trivial
    · split <;> exact .pure trivial

/-! ### What the file holds -/

theorem Disk.readSize_pos (disk : Disk) (h : Handle) {limit : Nat} (hlimit : 0 < limit) :
    0 < disk.readSize h limit := by
  unfold readSize
  cases firstFor? h.place disk.faults.reads with
  | none => exact hlimit
  | some most => simp only [Option.elim_some]; omega

namespace Work

variable {disk : Disk} {place : Place} {born : Nat} {bytes : Bytes} {access : Access}

/-- Each read delivers something, so that as many as there are bytes come to the end. -/
theorem readRest_file (hfile : disk.root.at? place = some (.file born bytes access))
    {steps offset : Nat} (got : Bytes) (hsteps : bytes.length - offset < steps) :
    ((readRest steps ⟨place, born, offset⟩ got).run disk).2 =
      if access = .broken then .error .inputOutput else .ok (got ++ bytes.drop offset) := by
  induction steps generalizing disk offset got with
  | zero => omega
  | succ steps ih =>
    unfold readRest
    rw [run_bind, run_read]
    by_cases hend : bytes.drop offset = []
    · by_cases hbroken : access = .broken <;> simp [Disk.read, hfile, hend, hbroken]
    · have hread : disk.read ⟨place, born, offset⟩ 8192 = _ := Disk.read_left hfile hend
      have hpos : 0 < disk.readSize ⟨place, born, offset⟩ 8192 := disk.readSize_pos _ (by decide)
      generalize disk.readSize _ 8192 = size at hread hpos
      have hprefix := List.prefix_iff_eq_append.mp <| List.take_prefix size (bytes.drop offset)
      obtain ⟨b, chunk, hchunk⟩ : ∃ b chunk, (bytes.drop offset).take size = b :: chunk :=
        List.exists_cons_of_ne_nil (by simp [hend, Nat.ne_of_gt hpos])
      rw [hchunk, List.drop_drop] at hprefix
      rw [hread, hchunk]
      have hlt : offset < bytes.length := by simpa using hend
      have hleft : bytes.length - (offset + (b :: chunk).length) < steps := by
        rw [List.length_cons]
        omega
      have hlater : (Change.apply { read := some place } disk).root.at? place =
          some (.file born bytes access) := hfile
      refine (ih hlater _ hleft).trans ?_
      rw [List.append_assoc, hprefix]

/-- All of a file is read, unless it is a device that has no end. -/
theorem readAll_run (p : Path) (disk : Disk) (hfull : disk.node p ≠ .ok (.device .full)) :
    ((readAll p).run disk).2 = disk.contents p := by
  unfold readAll
  rw [run_bind, run_openRead]
  unfold Disk.contents
  have hnode := hfull
  unfold Disk.node at hnode
  unfold Disk.openRead
  cases hloc : disk.locate true p with
  | error e => rfl
  | ok s =>
    cases s with
    | free => rfl
    | found place =>
      rw [hloc] at hnode
      dsimp only at hnode ⊢
      cases hn : disk.root.at? place with
      | none => simp [readRest, Disk.read, hn]
      | some n =>
        rw [hn] at hnode
        cases n with
        | dir es => simp [readRest, Disk.read, hn]
        | link target => simp [readRest, Disk.read, hn]
        | device kind =>
          cases kind with
          | full => exact absurd rfl hnode
          | null => simp [readRest, Disk.read, hn]
        | file born bytes access =>
          have hrest : ((readRest (bytes.length + 1) ⟨place, born, 0⟩ []).run disk).2 = _ :=
            readRest_file hn [] (by omega)
          cases access with
          | locked => rfl
          | broken => simpa [hn] using hrest
          | normal => simpa [hn] using hrest

end Work

namespace FileSettings

/-- What comes of a settings file by what it holds. -/
def ofContents (p : Path) : Except OsError Bytes → Except LoadError FileSettings
  | .error e => .error (.unreadable p e)
  | .ok bytes =>
    match Utf8.decode? bytes with
    | none => .error (.notText p)
    | some content => (parse? content).elim (.error (.invalid p)) .ok

theorem load_run (p : Path) (disk : Disk) (hfull : disk.node p ≠ .ok (.device .full)) :
    ((load p).run disk).2 = ofContents p (disk.contents p) := by
  unfold load
  rw [Work.run_bind, Work.readAll_run p disk hfull]
  cases disk.contents p with
  | error e => rfl
  | ok bytes =>
    simp only [ofContents]
    cases Utf8.decode? bytes with
    | none => rfl
    | some content =>
      simp only
      cases parse? content <;> rfl

end FileSettings

end NodeLogs
