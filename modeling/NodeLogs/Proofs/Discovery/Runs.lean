import NodeLogs.Discovery.Resolve
import NodeLogs.Proofs.Discovery.Walk
import NodeLogs.Proofs.Tree.Apart

/-! The runs below a root. The search for them only looks at the disk. On a plain disk
it finds subdirectories of the root, each once, or the root alone, so that the
directories of the runs are apart. -/

namespace NodeLogs

/-! ### Work that only looks -/

/-- Work that only looks at a disk, with a result of a kind. -/
abbrev Work.Finds {α : Type} (disk : Disk) (Q : α → Prop) (w : Work α) : Prop :=
  w.Stays (· = disk) (fun c => c.isLook) Q

theorem Work.Finds.run {α : Type} {disk : Disk} {Q : α → Prop} {w : Work α}
    (h : w.Finds disk Q) : Q (w.run disk).2 ∧ (w.run disk).1 = disk :=
  Stays.run h (fun later _ hlater hlook => (later.answer_look hlook).trans hlater) rfl

theorem Work.Finds.look (disk : Disk) {c : Call} (hlook : c.isLook) :
    (ask c).Finds disk fun answer => answer = (disk.answer c).2 :=
  .ask hlook fun later hlater => by rw [hlater]

theorem looksLikeRun_finds (disk : Disk) (reach : Nat) (p : Path) :
    (looksLikeRun reach p).Finds disk fun _ => True := by
  have hkeeps : Walk.Keeps ⟨fun _ _ => pure true, id⟩ (· = disk) (fun c => c.isLook)
      (fun _ => True) fun _ => True :=
    ⟨fun _ => rfl, fun _ => rfl, fun _ => rfl, fun _ _ _ _ => trivial, fun _ _ => .pure trivial⟩
  exact Walk.walk_stays hkeeps reach trivial trivial

/-! ### Runs apart -/

/-- The paths of runs lead to directories, and these are apart. -/
structure Disk.Parts (disk : Disk) (runs : List Run) : Prop where
  leadsTo : ∀ run ∈ runs, run.path.bytes ≠ [] ∧ ∃ place, disk.LeadsTo run.path place
  apart : runs.Pairwise fun run other => ∀ place place', disk.LeadsTo run.path place →
    disk.LeadsTo other.path place' → place.Apart place'

namespace Disk.Parts

variable {disk : Disk} {runs found : List Run}

theorem nil (disk : Disk) : disk.Parts [] :=
  ⟨by simp, .nil⟩

theorem sublist (h : disk.Parts runs) (hfound : found.Sublist runs) : disk.Parts found :=
  ⟨fun run hrun => h.leadsTo run (hfound.subset hrun), h.apart.sublist hfound⟩

section Keeps

variable {later : Disk} {S : Place → Prop} (h : disk.Parts runs) (hplain : disk.Plain)
  (hlater : later.Plain) (hu : Disk.Updates S disk later)
include h hplain hlater hu

/-- Where a run's path leads to later is where it has always led. -/
theorem leadsTo_of {run : Run} (hrun : run ∈ runs) {place : Place}
    (hplace : later.LeadsTo run.path place) : disk.LeadsTo run.path place := by
  obtain ⟨-, old, hold⟩ := h.leadsTo run hrun
  have hsame := hplace.go_eq.symm.trans (hold.keeps hplain hlater hu).go_eq
  rw [Except.ok.injEq, Spot.found.injEq] at hsame
  exact hsame ▸ hold

theorem keeps : later.Parts runs := by
  refine ⟨fun run hrun => ?_, h.apart.imp_of_mem fun {run other} hrun hother hapart place place'
    hplace hplace' => ?_⟩
  · obtain ⟨hne, place, hplace⟩ := h.leadsTo run hrun
    exact ⟨hne, place, hplace.keeps hplain hlater hu⟩
  · exact hapart place place' (h.leadsTo_of hplain hlater hu hrun hplace)
      (h.leadsTo_of hplain hlater hu hother hplace')

end Keeps

theorem perm (h : disk.Parts runs) (hfound : found.Perm runs) : disk.Parts found := by
  refine ⟨fun run hrun => h.leadsTo run (hfound.mem_iff.mp hrun), ?_⟩
  refine (hfound.pairwise_iff fun hapart place place' hplace hplace' => ?_).mpr h.apart
  exact (hapart place' place hplace' hplace).symm

theorem root (hplain : disk.Plain) {root : Path} (hroot : disk.isDir root) :
    disk.Parts [Run.ofPath root] :=
  ⟨by simpa using! hplain.leadsTo_of_isDir hroot, List.pairwise_singleton _ _⟩

/-- Entries of one directory are apart. -/
theorem entries (hplain : disk.Plain) {root : Path} {place : Place} (hroot : disk.LeadsTo root place)
    {names : List Name} (hnodup : names.Nodup)
    (hnames : ∀ name ∈ names, EntryName name ∧ disk.isDir (root.child name)) :
    disk.Parts (names.map fun name => Run.ofPath (root.child name)) := by
  refine ⟨fun run hrun => ?_, List.pairwise_map.mpr ?_⟩
  · obtain ⟨name, hname, rfl⟩ := List.mem_map.mp hrun
    exact hplain.leadsTo_of_isDir (hnames name hname).2
  · refine hnodup.imp_of_mem fun {name other} hname hother hne p q hp hq => ?_
    obtain rfl := hroot.place_child hplain (hnames name hname).1 hp
    obtain rfl := hroot.place_child hplain (hnames other hother).1 hq
    exact ⟨place, name, other, [], [], rfl, rfl, hne⟩

end Disk.Parts

/-! ### The search -/

namespace Discovery

variable {disk : Disk}

/-- The subdirectories among entries are some of them, in their order. -/
theorem subdirectories_finds (disk : Disk) (root : Path) (es : List (Name × Bool)) :
    (subdirectories root es).Finds disk fun runs => ∃ names : List Name,
      names.Sublist (es.map Prod.fst) ∧ (∀ name ∈ names, disk.isDir (root.child name)) ∧
        runs = names.map fun name => Run.ofPath (root.child name) := by
  induction es with
  | nil => exact .pure ⟨[], .slnil, by simp, rfl⟩
  | cons e es ih =>
    obtain ⟨name, _⟩ := e
    refine .bind (Work.Finds.look disk (c := .isDir (root.child name)) rfl) fun isDir hdir => ?_
    refine .bind ih fun runs hruns => ?_
    obtain ⟨names, hsub, hnames, rfl⟩ := hruns
    cases isDir with
    | false => exact .pure ⟨names, hsub.cons name, hnames, rfl⟩
    | true =>
      exact .pure ⟨name :: names, hsub.cons_cons name,
        List.forall_mem_cons.mpr ⟨hdir.symm, hnames⟩, rfl⟩

theorem withLogs_finds (disk : Disk) (reach : Nat) (runs : List Run) :
    (withLogs reach runs).Finds disk fun found => found.Sublist runs := by
  induction runs with
  | nil => exact .pure .slnil
  | cons run runs ih =>
    refine .bind (looksLikeRun_finds disk reach run.path) fun hasLogs _ => ?_
    refine .bind ih fun found hfound => ?_
    cases hasLogs with
    | false => exact .pure (hfound.cons run)
    | true => exact .pure (hfound.cons_cons run)

theorem detect_looks (disk : Disk) (reach : Nat) (root : Path) (candidates : List Run) :
    (detect reach root candidates).Finds disk fun _ => True := by
  refine .bind (withLogs_finds disk reach candidates) fun found _ => ?_
  cases found with
  | cons run found => exact .pure trivial
  | nil => exact .bind (looksLikeRun_finds disk reach root) fun _ _ => .pure trivial

theorem resolve_looks (disk : Disk) (reach : Nat) (hints : Hints) (root : Path) :
    (resolve reach hints root).Finds disk fun _ => True := by
  refine .bind (Work.Finds.look disk (c := .list root) rfl) fun listed _ => ?_
  cases listed with
  | error e => exact .pure trivial
  | ok es =>
    refine .bind (subdirectories_finds disk root es) fun runs _ => ?_
    cases hints.stem? with
    | none => exact .bind (detect_looks disk reach root _) fun _ _ => .pure trivial
    | some stem =>
      refine .bind (withLogs_finds disk reach _) fun found _ => ?_
      cases found with
      | cons run found => exact .pure trivial
      | nil => exact .bind (detect_looks disk reach root _) fun _ _ => .pure trivial

variable (hplain : disk.Plain) {root : Path} (hroot : disk.isDir root)
include hplain hroot

theorem detect_finds (reach : Nat) {candidates : List Run} (hruns : disk.Parts candidates) :
    (detect reach root candidates).Finds disk disk.Parts := by
  refine .bind (withLogs_finds disk reach candidates) fun found hfound => ?_
  cases found with
  | cons run found => exact .pure (hruns.sublist hfound)
  | nil =>
    refine .bind (looksLikeRun_finds disk reach root) fun hasLogs _ => ?_
    cases hasLogs with
    | false => exact .pure (.nil disk)
    | true => exact .pure (.root hplain hroot)

theorem resolve_finds (reach : Nat) (hints : Hints) :
    (resolve reach hints root).Finds disk (Yields fun found => disk.Parts found.1) := by
  obtain ⟨-, place, hleads⟩ := hplain.leadsTo_of_isDir hroot
  refine .bind (Work.Finds.look disk (c := .list root) rfl) fun listed hlisted => ?_
  cases listed with
  | error e => exact .pure trivial
  | ok es =>
    obtain ⟨hnodup, hproper⟩ := hplain.list_names hlisted.symm
    refine .bind (subdirectories_finds disk root es) fun runs hruns => ?_
    obtain ⟨names, hsub, hnames, rfl⟩ := hruns
    have hparts := Disk.Parts.entries hplain hleads (hnodup.sublist hsub) fun name hname => by
      obtain ⟨e, he, rfl⟩ := List.mem_map.mp (hsub.subset hname)
      exact ⟨hproper e he, hnames _ hname⟩
    have hsorted := hparts.perm (perm_sortBy Run.before _)
    cases hints.stem? with
    | none => exact .bind (detect_finds hplain hroot reach hsorted) fun found hfound => .pure hfound
    | some stem =>
      refine .bind (withLogs_finds disk reach _) fun found hfound => ?_
      cases found with
      | cons run found =>
        exact .pure (hsorted.sublist (hfound.trans (List.filter_sublist ..)))
      | nil => exact .bind (detect_finds hplain hroot reach hsorted) fun found hfound => .pure hfound

end Discovery

/-- On any disk the search changes nothing, and it says of no directory that it is none. -/
theorem discover_looks (disk : Disk) (reach : Nat) (hints : Hints) (root : Path) :
    (discover reach hints root).Finds disk fun r =>
      if disk.isDir root then ∀ p, r ≠ .error (.notADirectory p)
      else r = .error (.notADirectory root) := by
  refine .bind (Work.Finds.look disk (c := .isDir root) rfl) fun isDir hdir => ?_
  obtain rfl : isDir = disk.isDir root := hdir
  cases disk.isDir root with
  | false => exact .pure rfl
  | true =>
    refine .bind (Discovery.resolve_looks disk reach hints root) fun r _ => ?_
    rcases r with e | ⟨_ | ⟨run, runs⟩, notices⟩ <;> exact .pure nofun

/-- On a plain disk the search for runs changes nothing, and what it finds is apart. -/
theorem discover_finds {disk : Disk} (hplain : disk.Plain) (reach : Nat) (hints : Hints)
    (root : Path) : (discover reach hints root).Finds disk (Yields fun found => disk.Parts found.1) := by
  refine .bind (Work.Finds.look disk (c := .isDir root) rfl) fun isDir hdir => ?_
  cases isDir with
  | false => exact .pure trivial
  | true =>
    refine .bind (Discovery.resolve_finds hplain hdir.symm reach hints) fun r hr => ?_
    rcases r with e | ⟨_ | ⟨run, runs⟩, notices⟩
    · exact .pure trivial
    · exact .pure hr
    · exact .pure hr

end NodeLogs
