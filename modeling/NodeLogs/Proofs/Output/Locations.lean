import NodeLogs.Proofs.Discovery.Files
import NodeLogs.Proofs.Output.Names

/-! Where output files are on a plain disk. A file that is opened under the name of an
outlet is in the directory for outputs and goes by that name there, so that it is no
log. Below a directory, a path that goes down and ends with an outlet's name denotes
the file at the place that it spells. -/

namespace NodeLogs

/-- The node whose log has a name goes by a number that fits a word. -/
theorem NodeLog.nodeOfName?_lt {name : Name} {n : Nat} (h : nodeOfName? name = some n) :
    n < wordLimit := by
  obtain ⟨cs, -, h⟩ := Option.bind_eq_some_iff.mp h
  simp only [nodeOfText?, List.splitAt_eq] at h
  split at h
  · split at h
    · unfold readWord? at h
      split at h
      · cases h
      · dsimp only at h
        split at h
        · cases h
          assumption
        · cases h
    · cases h
  · cases h

namespace Outlet

theorem stepName (x : Outlet) : StepName x.name where
  ne_nil := x.name_ne.1
  ne_dot := x.name_ne.2.1
  ne_dots := x.name_ne.2.2
  no_zero := x.not_mem_name (.inl rfl)
  no_slash := x.not_mem_name (.inr rfl)

/-- The name of a file of all nodes can be given to an entry. -/
theorem entryName_all (form : Form) : EntryName (name ⟨.all, form⟩) := by
  cases form <;> decide

/-- So can that of a file of one node, as long as its number is one that logs can have. -/
theorem entryName_node {n : Nat} (hn : n < wordLimit) (form : Form) :
    EntryName (name ⟨.node n, form⟩) where
  toStepName := stepName _
  length_le := by
    have hdigits : (decimal n).length ≤ 20 :=
      (Nat.length_toDigits_le_iff (by decide) (by decide)).mpr (Nat.lt_trans hn (by decide))
    have hending : form.ending.length ≤ 6 := by cases form <;> decide
    have hlength : (fileName ⟨.node n, form⟩).length = 4 + (decimal n).length + form.ending.length := by
      simp [fileName, nodeFileName]
      omega
    rw [name, Utf8.length_encode fun c hc => (fileName_chars _ c hc).2.2, hlength, nameLimit]
    omega

/-- At the place there can be an output file. -/
def At (place : Place) : Prop :=
  ∃ above, ∃ x : Outlet, place = above ++ [x.name]

/-- No output file is a log. -/
theorem At.not_log {place : Place} (h : At place) : ¬ isLogPlace place := by
  obtain ⟨above, x, rfl⟩ := h
  simp [isLogPlace, x.nodeOfName?_name]

end Outlet

namespace Disk

variable {disk : Disk} {x : Outlet}

/-- A file that is opened for writing at an outlet is in the outlet's directory. -/
theorem Plain.create_output (hplain : disk.Plain) {dir : Path} {h : Handle}
    (hok : (disk.create (x.path dir)).2 = .ok h) :
    ∃ place, disk.LeadsTo dir place ∧ h.place = place ++ [x.name] := by
  have hspot : ∃ spot, disk.locate true (dir.child x.name) = .ok spot ∧ h.place = spot.place := by
    rcases disk.create_cases (x.path dir) with ⟨e, hc⟩ | ⟨place, name, hloc, hc⟩ |
      ⟨place, born, bytes, access, hloc, -, hc⟩ | ⟨place, hloc, -, hc⟩
    all_goals rw [hc] at hok; cases hok
    · exact ⟨_, hloc, rfl⟩
    · exact ⟨_, hloc, rfl⟩
    · exact ⟨_, hloc, rfl⟩
  obtain ⟨spot, hloc, hplace⟩ := hspot
  obtain ⟨place, hdir, hname⟩ := hplain.leadsTo_of_child x.stepName hloc
  refine ⟨place, hdir, ?_⟩
  rw [hdir.locate_child hplain hname, Except.ok.injEq] at hloc
  rw [hplace, ← hloc]
  split <;> rfl

/-- The bytes of the regular file that a path names. -/
def bytesOf? (disk : Disk) (p : Path) : Option Bytes :=
  match disk.locate true p with
  | .ok (.found place) => disk.bytesAt? place
  | _ => none

theorem bytesOf?_of_found {disk : Disk} {p : Path} {place : Place}
    (h : disk.locate true p = .ok (.found place)) : disk.bytesOf? p = disk.bytesAt? place := by
  rw [bytesOf?, h]

namespace LeadsTo

/-- The file of an outlet is the one at its name in the outlet's directory. -/
theorem bytesOf?_outlet {p : Path} {place : Place} (h : disk.LeadsTo p place)
    (hplain : disk.Plain) (x : Outlet) :
    disk.bytesOf? (x.path p) = disk.bytesAt? (place ++ [x.name]) := by
  have hpath : x.path p = p.child x.name := rfl
  by_cases hlength : x.name.length ≤ nameLimit
  · rw [bytesOf?, hpath, h.locate_child hplain ⟨x.stepName, hlength⟩]
    cases hn : disk.root.at? (place ++ [x.name]) <;> simp [bytesAt?, hn]
  · -- No entry has a name that is too long.
    have hnone : disk.root.at? (place ++ [x.name]) = none :=
      Option.eq_none_iff_forall_ne_some.mpr fun n hn =>
        hlength (hplain.entryName_of_at? hn).length_le
    rw [bytesOf?, hpath, h.locate_name hplain x.stepName,
      Node.go_cons hplain.tree x.stepName.ne_dot x.stepName.ne_dots, if_pos (Nat.not_le.mp hlength),
      bytesAt?, hnone]
    rfl

variable {p sub : Path} {place : Place} (h : disk.LeadsTo p place) (hplain : disk.Plain)
  (hsub : sub.GoesDown)
include h hplain hsub

/-- An output file that is opened is at the place that its path spells. -/
theorem create_place {handle : Handle} (hok : (disk.create (x.path (p.join sub))).2 = .ok handle) :
    handle.place = place ++ sub.inside ++ [x.name] := by
  obtain ⟨dir, hdir, hplace⟩ := hplain.create_output hok
  rw [hplace, h.place_join hplain hsub hdir]

/-- What is at the place that an output file's path spells is where the path leads. -/
theorem locate_output {n : Node}
    (hn : disk.root.at? (place ++ sub.inside ++ [x.name]) = some n) (followLast : Bool) :
    disk.locate followLast (x.path (p.join sub)) =
      .ok (.found (place ++ sub.inside ++ [x.name])) := by
  have hdir := h.join hplain hsub (.of_append (List.cons_ne_nil _ _) hn)
  refine (hdir.locate_child hplain (hplain.entryName_of_at? hn) followLast).trans ?_
  rw [hn]
  rfl

/-- An output file below a directory is the file at the place that its path spells. -/
theorem bytesOf?_output (x : Outlet) :
    disk.bytesOf? (x.path (p.join sub)) = disk.bytesAt? (place ++ sub.inside ++ [x.name]) := by
  by_cases hdir : disk.root.HasDir (place ++ sub.inside)
  · exact (h.join hplain hsub hdir).bytesOf?_outlet hplain x
  · -- Without its directory there is no file, and its path leads nowhere.
    have hnone : disk.bytesAt? (place ++ sub.inside ++ [x.name]) = none := by
      refine Option.eq_none_iff_forall_ne_some.mpr fun bytes hbytes => ?_
      obtain ⟨born, access, hfile⟩ := bytesAt?_eq_some.mp hbytes
      exact hdir (.of_append (List.cons_ne_nil _ _) hfile)
    rw [hnone, bytesOf?]
    split
    next q hloc =>
      obtain ⟨dir, hleads, -⟩ := hplain.leadsTo_of_child x.stepName hloc
      exact absurd (h.place_join hplain hsub hleads ▸ hleads.hasDir) hdir
    next => rfl

end LeadsTo

end Disk

end NodeLogs
