import NodeLogs.Proofs.Discovery.Covers
import NodeLogs.Proofs.Tree.Proper

/-! Hints only narrow the search for runs. What is found with them is what is found without
them, or those of it that they name; they are never the reason why nothing is found. This
holds of every disk, links included: which directories hold logs need not be said for it. -/

namespace NodeLogs

/-- Both hints are given, neither is empty, and the run is an entry of the root with a name
that begins with them. -/
def Hints.names (hints : Hints) (root : Path) (run : Run) : Bool :=
  match hints.testName, hints.schedType with
  | some test, some sched =>
    test ≠ [] && sched ≠ [] && run.path.isEntryOf root &&
      (test ++ '_' :: sched ++ ['_']).isPrefixOf run.name
  | _, _ => false

theorem Hints.names_eq (hints : Hints) (root : Path) (run : Run) :
    hints.names root run = (run.path.isEntryOf root &&
      hints.stem?.any fun stem => stem.isPrefixOf run.name) := by
  obtain ⟨test, sched⟩ := hints
  rcases test with _ | _ | ⟨c, test⟩ <;> rcases sched with _ | _ | ⟨c, sched⟩ <;>
    simp [names, stem?]

theorem Path.mem_names_of_fileName? {p : Path} {name : Name} (h : p.fileName? = some name) :
    name ∈ p.names := by
  have hlast : p.components.getLast? = some (.normal name) := by
    unfold fileName? at h
    split at h
    next name' hname =>
      cases h
      exact hname
    · cases h
  have hmem := List.mem_of_getLast? hlast
  rw [components_eq, lead] at hmem
  rcases List.mem_append.mp hmem with hlead | hname
  · split at hlead
    · simp at hlead
    · split at hlead
      · simp at hlead
      · cases hlead
  · obtain ⟨piece, hpiece, hcomponent⟩ := List.mem_filterMap.mp hname
    unfold componentOf? at hcomponent
    split at hcomponent
    · cases hcomponent
    split at hcomponent
    · cases hcomponent
    · cases hcomponent
      exact hpiece

/-- A directory is no entry of itself. -/
theorem Path.isEntryOf_self (p : Path) : p.isEntryOf p = false := by
  cases hname : p.fileName? with
  | none => simp [isEntryOf, hname]
  | some name =>
    obtain ⟨hne, hslash, -⟩ := mem_names (mem_names_of_fileName? hname)
    have habs : (⟨name⟩ : Path).isAbsolute = false := by
      cases name with
      | nil => rfl
      | cons b bs => simpa [isAbsolute] using fun h : b = slash => hslash (by simp [h])
    have hlength : p.bytes.length < (p.child name).bytes.length := by
      have := List.length_pos_iff.mpr hne
      rw [child, bytes_join habs]
      split
      · simp only [List.length_append]
        omega
      · simp only [List.length_append, List.length_cons]
        omega
    simp only [isEntryOf, hname, Option.any_some, decide_eq_false_iff_not]
    intro heq
    rw [← heq] at hlength
    exact Nat.lt_irrefl _ hlength

namespace Discovery

/-- The choice with hints is the choice without them, or what the hints name of it. -/
theorem choose_eq {root : Path} {runs : List Run} (hruns : ∀ run ∈ runs, run.path.isEntryOf root)
    (hints : Hints) (rootHasLogs : Bool) :
    (choose hints root runs rootHasLogs).1 =
      match (choose {} root runs rootHasLogs).1.filter (hints.names root) with
      | [] => (choose {} root runs rootHasLogs).1
      | named => named := by
  cases runs with
  | nil =>
    -- At most the root is found, and hints do not name it.
    have hroot : hints.names root (Run.ofPath root) = false := by
      simp [Hints.names_eq, Run.ofPath, Path.isEntryOf_self]
    have hnone : (choose {} root [] rootHasLogs).1.filter (hints.names root) = [] := by
      cases rootHasLogs <;> simp [choose, Hints.stem?, hroot]
    rw [hnone]
    unfold choose
    cases hints.stem? <;> rfl
  | cons run runs =>
    have hnames : (run :: runs).filter (hints.names root) =
        (run :: runs).filter fun run => hints.stem?.any fun stem => stem.isPrefixOf run.name :=
      List.filter_congr fun run hrun => by rw [Hints.names_eq, hruns run hrun, Bool.true_and]
    rw [show (choose {} root (run :: runs) rootHasLogs).1 = run :: runs from rfl, hnames]
    unfold choose
    cases hints.stem? with
    | none => simp
    | some stem =>
      dsimp only [Option.any_some]
      cases (run :: runs).filter fun run => stem.isPrefixOf run.name <;> rfl

/-- What hints make of what is found without them. -/
structure Narrows (hints : Hints) (root : Path) (all found : List Run) : Prop where
  /-- Where they name runs that are found without them, those are found. -/
  named : (∃ run ∈ all, hints.names root run) → found = all.filter (hints.names root)
  /-- Else they do nothing. -/
  unnamed : (¬ ∃ run ∈ all, hints.names root run) → found = all
  /-- No run is added, and the order stays. -/
  sublist : found.Sublist all
  /-- Something is found if something is found without them. -/
  ne_nil : all ≠ [] → found ≠ []

theorem narrows_choose {root : Path} {runs : List Run}
    (hruns : ∀ run ∈ runs, run.path.isEntryOf root) (hints : Hints) (rootHasLogs : Bool) :
    Narrows hints root (choose {} root runs rootHasLogs).1
      (choose hints root runs rootHasLogs).1 := by
  rw [choose_eq hruns hints]
  generalize (choose {} root runs rootHasLogs).1 = all
  cases hnamed : all.filter (hints.names root) with
  | nil =>
    dsimp only
    have hnone : ¬ ∃ run ∈ all, hints.names root run := by
      simpa [List.filter_eq_nil_iff] using hnamed
    exact ⟨fun h => absurd h hnone, fun _ => rfl, .refl _, id⟩
  | cons run named =>
    have hrun : run ∈ all.filter (hints.names root) := hnamed ▸ List.mem_cons_self
    have hsub : (run :: named).Sublist all := hnamed ▸ List.filter_sublist
    exact ⟨fun _ => hnamed.symm, fun hnone => absurd ⟨run, List.mem_filter.mp hrun⟩ hnone, hsub,
      fun _ => nofun⟩

/-- In a directory whose entries have proper names the candidates are entries. -/
theorem isEntryOf_of_mem_candidates {disk : Disk} (hproper : disk.root.isProper) {root : Path}
    {es : List (Name × Bool)} (hlist : disk.list root = .ok es) {run : Run}
    (hrun : run ∈ candidates disk root es) : run.path.isEntryOf root := by
  obtain ⟨e, he, rfl⟩ := List.mem_map.mp ((perm_sortBy Run.before _).mem_iff.mp hrun)
  have hname := (Disk.list_names hproper hlist).2 e (List.mem_filter.mp he).1
  exact Path.isEntryOf_child (of_decide_eq_true hname) root

/-- Whatever the hints are, what is found with them is part of what is found without. -/
theorem resolve_narrows {disk : Disk} (hproper : disk.root.isProper) (reach : Nat) (hints : Hints)
    {root : Path} (hroot : disk.isDir root) :
    ∃ all found notices, (resolve reach {} root).run disk = (disk, .ok (all, [])) ∧
      (resolve reach hints root).run disk = (disk, .ok (found, notices)) ∧
        Narrows hints root all found := by
  obtain ⟨place, hloc, es, hes⟩ := (disk.isDir_iff root).mp hroot
  have hlist : disk.list root = .ok (es.map fun e => (e.1, e.2.isDir)) := by
    simp [Disk.list, Walk.node_eq hloc hes]
  refine ⟨_, _, _, resolve_run_of_list hlist reach {}, resolve_run_of_list hlist reach hints,
    narrows_choose (fun run hrun => ?_) hints _⟩
  exact isEntryOf_of_mem_candidates hproper hlist (List.mem_filter.mp hrun).1

end Discovery

/-! ### A hint that a linked run goes by -/

namespace HintedLink

def name (s : String) : Name :=
  Utf8.encode s.toList

/-- The hints name a link to a run, a run, and a directory without logs. -/
def disk : Disk where
  root := .dir [(name "stash", .dir [(name "stderr_4.log", .file 0 [] .normal)]),
    (name "runs", .dir [(name "t_s_2", .dir [(name "stdout_0.log", .file 1 [] .normal)]),
      (name "other", .dir [(name "stdout_7.log", .file 2 [] .normal)]),
      (name "t_s_3", .dir []), (name "t_s_1", .link (.ofString "../stash"))])]
  cwd := []

def hints : Hints where
  testName := some "t".toList
  schedType := some "s".toList

end HintedLink

namespace Discovery

open HintedLink in
theorem resolve_narrows_link : disk.root.isProper ∧ disk.isDir (.ofString "runs") ∧
    (∃ all found notices,
      (resolve 2 {} (.ofString "runs")).run disk = (disk, .ok (all, [])) ∧
      (resolve 2 hints (.ofString "runs")).run disk = (disk, .ok (found, notices)) ∧
        Narrows hints (.ofString "runs") all found) ∧
    ((resolve 2 hints (.ofString "runs")).run disk).2.toOption.map (fun r => r.1.map Run.name) =
      some ["t_s_1".toList, "t_s_2".toList] := by
  have hproper : disk.root.isProper := by decide +kernel
  have hroot : disk.isDir (.ofString "runs") := by decide +kernel
  exact ⟨hproper, hroot, resolve_narrows hproper 2 hints hroot, by decide +kernel⟩

end Discovery

end NodeLogs
