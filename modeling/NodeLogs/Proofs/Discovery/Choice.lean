import NodeLogs.Proofs.Discovery.Runs
import NodeLogs.Proofs.Tree.Ancestors

/-! Which runs are found, said without the search. On a plain disk the choice depends on
nothing but which subdirectories of the root hold logs and whether the root does. So it stays
the same as long as no log comes or goes, whatever else is made below the root. -/

namespace NodeLogs

/-! ### The order of entries -/

theorem insertBy_congr {α : Type} {before before' : α → α → Bool} {x : α} {ys : List α}
    (h : ∀ y ∈ ys, before y x = before' y x) : insertBy before x ys = insertBy before' x ys := by
  induction ys with
  | nil => rfl
  | cons y ys ih =>
    obtain ⟨hy, hys⟩ := List.forall_mem_cons.mp h
    rw [insertBy, insertBy, hy, ih hys]

theorem sortBy_congr {α : Type} {before before' : α → α → Bool} {xs : List α}
    (h : ∀ x ∈ xs, ∀ y ∈ xs, before x y = before' x y) : sortBy before xs = sortBy before' xs := by
  induction xs with
  | nil => rfl
  | cons x xs ih =>
    rw [sortBy_cons, sortBy_cons, ih fun x hx y hy =>
      h x (List.mem_cons_of_mem _ hx) y (List.mem_cons_of_mem _ hy)]
    exact insertBy_congr fun y hy =>
      h y (List.mem_cons_of_mem _ ((perm_sortBy _ xs).mem_iff.mp hy)) x List.mem_cons_self

namespace Path

variable {p : Path} (hne : p.bytes ≠ []) {a b : Name}
include hne

theorem components_child {name : Name} (hname : StepName name) :
    (p.child name).components = p.components ++ [.normal name] := by
  have hlead : (p.child name).lead = p.lead := lead_join hne (isAbsolute_name hname)
  rw [components_eq, components_eq p, hlead, names_child hname, List.filterMap_append,
    List.append_assoc]
  simp [componentOf?, hname.ne_nil, hname.ne_dot, hname.ne_dots]

omit hne in
theorem componentsBefore_append (cs as bs : List Component) :
    componentsBefore (cs ++ as) (cs ++ bs) = componentsBefore as bs := by
  induction cs with
  | nil => rfl
  | cons c cs ih =>
    have hirrefl : c.before c = false := by cases c <;> simp [Component.before]
    simp [componentsBefore, hirrefl, ih]

/-- Entries of one directory come in the order of their names. -/
theorem before_child (ha : StepName a) (hb : StepName b) :
    (p.child a).before (p.child b) = decide (a < b) := by
  rw [before, components_child hne ha, components_child hne hb, componentsBefore_append]
  simp [componentsBefore, Component.before]

end Path

theorem Run.before_child {p : Path} (hne : p.bytes ≠ []) {a b : Name} (ha : StepName a)
    (hb : StepName b) :
    (Run.ofPath (p.child a)).before (Run.ofPath (p.child b)) = decide (a < b) := by
  have hpaths (a : Name) : (Run.ofPath (p.child a)).path = p.child a := rfl
  rw [before, hpaths, hpaths, Path.before_child hne ha hb, Path.before_child hne hb ha]
  by_cases hab : a < b
  · simp [hab]
  · by_cases hba : b < a
    · simp [hab, hba]
    · have heq : a = b := List.le_antisymm (by simpa using hba) (by simpa using hab)
      simp [heq, List.lt_irrefl]

/-! ### The search in parts -/

namespace Disk

/-- Does the walk find logs below a path? -/
def hasLogs (disk : Disk) (reach : Nat) (p : Path) : Bool :=
  ((looksLikeRun reach p).run disk).2

variable {disk later : Disk}

theorem hasLogs_eq (hplain : disk.Plain) (reach : Nat) {p : Path} {place : Place} {n : Node}
    (hloc : disk.locate true p = .ok (.found place)) (hn : disk.root.at? place = some n) :
    disk.hasLogs reach p = !(logsAt reach p n).isEmpty := by
  have hsteady : Walk.Steady (σ := Bool) ⟨fun _ _ => pure true, id⟩ fun later _ => later.Plain :=
    ⟨fun _ _ h => h, fun _ _ _ h _ => ⟨h, .refl _ _⟩⟩
  rw [hasLogs, looksLikeRun, (Walk.walk_alike hsteady reach hplain rfl hloc hn).run,
    Walk.visitAll_any]

end Disk

namespace Discovery

theorem subdirectories_run (disk : Disk) (root : Path) (es : List (Name × Bool)) :
    (subdirectories root es).run disk = (disk,
      (es.filter fun e => disk.isDir (root.child e.1)).map fun e => Run.ofPath (root.child e.1)) := by
  induction es with
  | nil => rfl
  | cons e es ih =>
    obtain ⟨name, isDir⟩ := e
    unfold subdirectories
    rw [Work.run_bind, Work.run_isDir, Work.run_bind, ih, List.filter_cons]
    cases disk.isDir (root.child name) <;> rfl

theorem withLogs_run (disk : Disk) (reach : Nat) (runs : List Run) :
    (withLogs reach runs).run disk =
      (disk, runs.filter fun run => disk.hasLogs reach run.path) := by
  induction runs with
  | nil => rfl
  | cons run runs ih =>
    unfold withLogs
    rw [Work.run_bind, (looksLikeRun_finds disk reach run.path).run.2, Work.run_bind, ih,
      List.filter_cons, Disk.hasLogs]
    cases ((looksLikeRun reach run.path).run disk).2 <;> rfl

theorem detect_run (disk : Disk) (reach : Nat) (root : Path) (candidates : List Run) :
    (detect reach root candidates).run disk = (disk,
      match candidates.filter fun run => disk.hasLogs reach run.path with
      | [] => if disk.hasLogs reach root then [Run.ofPath root] else []
      | found => found) := by
  unfold detect
  rw [Work.run_bind, withLogs_run]
  dsimp only
  cases candidates.filter fun run => disk.hasLogs reach run.path with
  | cons run found => rfl
  | nil =>
    dsimp only
    rw [Work.run_bind, (looksLikeRun_finds disk reach root).run.2]
    rfl

/-! ### The choice -/

/-- The directories among entries, by name. -/
def subdirs (es : List (Name × Node)) : List (Name × Node) :=
  byName (es.filter fun e => e.2.isDir)

/-- The runs among the entries of a directory: the subdirectories that hold logs. -/
def runsIn (reach : Nat) (root : Path) (es : List (Name × Node)) : List Run :=
  ((subdirs es).filter fun e => !(logsAt reach (root.child e.1) e.2).isEmpty).map fun e =>
    Run.ofPath (root.child e.1)

/-- Those of the runs that the hints name, or else all of them, or else the root. -/
def choose (hints : Hints) (root : Path) (runs : List Run) (rootHasLogs : Bool) :
    List Run × List Notice :=
  let detected := match runs with
    | [] => if rootHasLogs then [Run.ofPath root] else []
    | runs => runs
  match hints.stem? with
  | none => (detected, [])
  | some stem =>
    match runs.filter fun run => stem.isPrefixOf run.name with
    | [] => (detected, [.autodetecting stem])
    | hinted => (hinted, [.usingHinted stem hinted.length])

/-- The listed entries that are directories, in the order of runs. -/
def candidates (disk : Disk) (root : Path) (es : List (Name × Bool)) : List Run :=
  Run.sort ((es.filter fun e => disk.isDir (root.child e.1)).map fun e =>
    Run.ofPath (root.child e.1))

/-- Runs of one directory come in the order of their names. -/
theorem candidates_eq (disk : Disk) {root : Path} (hne : root.bytes ≠ []) {es : List (Name × Bool)}
    (hnames : ∀ e ∈ es, StepName e.1) : candidates disk root es =
      (byName (es.filter fun e => disk.isDir (root.child e.1))).map fun e =>
        Run.ofPath (root.child e.1) := by
  rw [candidates, Run.sort, sortBy_map]
  congr 1
  exact sortBy_congr fun a ha b hb => Run.before_child hne (hnames a (List.mem_filter.mp ha).1)
    (hnames b (List.mem_filter.mp hb).1)

/-- How the search goes on with what was listed. -/
def resolveListed (reach : Nat) (hints : Hints) (root : Path) :
    Except OsError (List (Name × Bool)) → Work (Except OsError (List Run × List Notice))
  | .error e => pure (.error e)
  | .ok entries => do
    let candidates := Run.sort (← subdirectories root entries)
    match hints.stem? with
    | none => return .ok (← detect reach root candidates, [])
    | some stem =>
      match ← withLogs reach (candidates.filter fun run => stem.isPrefixOf run.name) with
      | [] => return .ok (← detect reach root candidates, [.autodetecting stem])
      | hinted => return .ok (hinted, [.usingHinted stem hinted.length])

theorem resolve_eq (reach : Nat) (hints : Hints) (root : Path) :
    resolve reach hints root = Work.ask (.list root) >>= resolveListed reach hints root := by
  unfold resolve
  congr 1
  funext listed
  cases listed <;> rfl

/-- On any disk the search comes to a choice among the candidates that hold logs. -/
theorem resolveListed_run (disk : Disk) (reach : Nat) (hints : Hints) (root : Path)
    (es : List (Name × Bool)) :
    (resolveListed reach hints root (.ok es)).run disk = (disk, .ok (choose hints root
      ((candidates disk root es).filter fun run => disk.hasLogs reach run.path)
      (disk.hasLogs reach root))) := by
  unfold resolveListed
  rw [Work.run_bind, subdirectories_run, ← candidates]
  unfold choose
  cases hints.stem? with
  | none => simp only [Work.run_bind, detect_run, Work.run_pure]
  | some stem =>
    dsimp only
    rw [Work.run_bind, withLogs_run, List.filter_comm]
    dsimp only
    cases ((candidates disk root es).filter fun run => disk.hasLogs reach run.path).filter
        fun run => stem.isPrefixOf run.name with
    | nil => simp only [Work.run_bind, detect_run, Work.run_pure]
    | cons run hinted => rfl

theorem resolve_run_of_list {disk : Disk} {root : Path} {es : List (Name × Bool)}
    (hlist : disk.list root = .ok es) (reach : Nat) (hints : Hints) :
    (resolve reach hints root).run disk = (disk, .ok (choose hints root
      ((candidates disk root es).filter fun run => disk.hasLogs reach run.path)
      (disk.hasLogs reach root))) := by
  rw [resolve_eq, Work.run_bind, Work.run_list, hlist]
  exact resolveListed_run disk reach hints root es

section Root

variable {disk : Disk} (hplain : disk.Plain) {root : Path} (hne : root.bytes ≠ []) {place : Place}
  (hroot : disk.LeadsTo root place) {es : List (Name × Node)}
  (hes : disk.root.at? place = some (.dir es))
include hplain hroot hes

theorem node_entry {e : Name × Node} (he : e ∈ es) :
    disk.locate true (root.child e.1) = .ok (.found (place ++ [e.1])) ∧
      disk.root.at? (place ++ [e.1]) = some e.2 := by
  have hat := (Node.at?_entry hplain.tree hes).mpr he
  refine ⟨?_, hat⟩
  rw [hroot.locate_child hplain (hplain.entryName_of_at? hat), hat]
  rfl

include hne

/-- The candidates that hold logs are the runs among the entries. -/
theorem candidates_hasLogs (reach : Nat) :
    (candidates disk root (es.map fun e => (e.1, e.2.isDir))).filter
      (fun run => disk.hasLogs reach run.path) = runsIn reach root es := by
  have hnode {e : Name × Node} (he : e ∈ es) := node_entry hplain hroot hes he
  have hdirs : (es.map fun e => (e.1, e.2.isDir)).filter (fun e => disk.isDir (root.child e.1)) =
      (es.filter fun e => e.2.isDir).map fun e => (e.1, e.2.isDir) := by
    rw [List.filter_map]
    refine congrArg _ (List.filter_congr fun e he => ?_)
    rw [Function.comp_apply, Disk.isDir, Walk.node_eq (hnode he).1 (hnode he).2]
  have hbyName : byName ((es.filter fun e => e.2.isDir).map fun e => (e.1, e.2.isDir)) =
      (subdirs es).map fun e => (e.1, e.2.isDir) :=
    sortBy_map (fun e : Name × Node => (e.1, e.2.isDir)) _ _
  rw [candidates_eq disk hne fun e he => ?_, hdirs, hbyName, List.map_map, List.filter_map, runsIn]
  · refine congrArg _ (List.filter_congr fun e he => ?_)
    have he := hnode (List.mem_filter.mp (mem_byName.mp he)).1
    exact Disk.hasLogs_eq hplain reach he.1 he.2
  · obtain ⟨entry, hentry, rfl⟩ := List.mem_map.mp he
    exact (hplain.entryName_of_at? (hnode hentry).2).toStepName

/-- What the search comes to. -/
theorem resolve_run (reach : Nat) (hints : Hints) :
    ((resolve reach hints root).run disk).2 =
      .ok (choose hints root (runsIn reach root es) !(logsAt reach root (.dir es)).isEmpty) := by
  have hloc := hroot.locate_eq hplain hne true
  have hlist : disk.list root = .ok (es.map fun e => (e.1, e.2.isDir)) := by
    simp [Disk.list, Walk.node_eq hloc hes]
  rw [resolve_run_of_list hlist, ← Disk.hasLogs_eq hplain reach hloc hes,
    ← candidates_hasLogs hplain hne hroot hes reach]

end Root

/-! ### The same choice again -/

section Again

variable {disk later : Disk} (hplain : disk.Plain) (hlater : later.Plain)
  (hsame : disk.SameLogs later) {root : Path} {place : Place} {es es' : List (Name × Node)}
  (hes : disk.root.at? place = some (.dir es)) (hes' : later.root.at? place = some (.dir es'))

/-- The names of the runs among entries are those of the directories that hold logs. -/
theorem mem_runsIn {name : Name} (reach : Nat) (root : Path) (es : List (Name × Node)) :
    name ∈ ((subdirs es).filter fun e => !(logsAt reach (root.child e.1) e.2).isEmpty).map Prod.fst ↔
      ∃ n, (name, n) ∈ es ∧ n.isDir ∧ logsAt reach (root.child name) n ≠ [] := by
  simp [subdirs, mem_byName, and_assoc]

include hplain hlater hsame hes hes'

/-- Where no log comes or goes the runs among the entries of a directory stay the same. -/
theorem runsIn_congr (reach : Nat) (root : Path) :
    runsIn reach root es' = runsIn reach root es := by
  have hsorted {es : List (Name × Node)} (hnodup : (es.map Prod.fst).Nodup) :
      (((subdirs es).filter fun e => !(logsAt reach (root.child e.1) e.2).isEmpty).map
        Prod.fst).Pairwise (· < ·) := by
    refine List.pairwise_map.mpr ((byName_pairwise ?_).filter _)
    exact hnodup.sublist (List.filter_sublist.map Prod.fst)
  have hold := hsorted (Node.isPlain_dir.mp (Node.isPlain_at? hplain.tree hes)).1
  have hnew := hsorted (Node.isPlain_dir.mp (Node.isPlain_at? hlater.tree hes')).1
  have hmap (es : List (Name × Node)) : runsIn reach root es =
      (((subdirs es).filter fun e => !(logsAt reach (root.child e.1) e.2).isEmpty).map
        Prod.fst).map fun name => Run.ofPath (root.child name) := by
    rw [List.map_map]
    rfl
  rw [hmap, hmap]
  refine congrArg _ (hnew.eq_of_mem_iff hold fun name => ?_)
  simp only [mem_runsIn, ← Node.at?_entry hplain.tree hes, ← Node.at?_entry hlater.tree hes']
  constructor
  · rintro ⟨m, hm, hdir, hlogs⟩
    -- A log below the entry was there before, and the entry with it.
    obtain ⟨file, hfile⟩ := List.exists_mem_of_ne_nil _ hlogs
    obtain ⟨below, -, -, ⟨born, bytes, access, hat⟩, hne, hlog⟩ :=
      exists_of_mem_logsAt (Node.isPlain_at? hlater.tree hm) hdir hfile
    rw [← isLogPlace_append (place ++ [name]) hne] at hlog
    have hold := (hsame.files _ hlog born bytes access).mp (by
      rw [Node.at?_append, hm]
      exact hat)
    obtain ⟨n, hn, -⟩ := Option.bind_eq_some_iff.mp ((Node.at?_append ..).symm.trans hold)
    obtain ⟨m', hm', hdir', hlogs'⟩ := hsame.entry hplain hlater hn
    obtain rfl : m' = m := by simpa [hm] using hm'.symm
    exact ⟨n, hn, hdir' ▸ hdir, hlogs' reach root ▸ hlogs⟩
  · rintro ⟨n, hn, hdir, hlogs⟩
    obtain ⟨m, hm, hdir', hlogs'⟩ := hsame.entry hplain hlater hn
    exact ⟨m, hm, hdir' ▸ hdir, hlogs' reach root ▸ hlogs⟩

end Again

end Discovery

/-- Where no log comes or goes the search for runs finds the same again. -/
theorem discover_congr {disk later : Disk} (hplain : disk.Plain) (hlater : later.Plain)
    (hsame : disk.SameLogs later) (reach : Nat) (hints : Hints) {root : Path}
    (hroot : disk.isDir root) :
    ((discover reach hints root).run later).2 = ((discover reach hints root).run disk).2 := by
  obtain ⟨hne, place, hleads⟩ := hplain.leadsTo_of_isDir hroot
  obtain ⟨S, hu⟩ := hsame.updates
  have hleads' := hleads.keeps hplain hlater hu
  have hroot' := hleads'.isDir hlater hne
  obtain ⟨es, hes⟩ := hleads.hasDir
  obtain ⟨es', hes'⟩ := hleads'.hasDir
  have hresolve : ((Discovery.resolve reach hints root).run later).2 =
      ((Discovery.resolve reach hints root).run disk).2 := by
    rw [Discovery.resolve_run hplain hne hleads hes, Discovery.resolve_run hlater hne hleads' hes',
      Discovery.runsIn_congr hplain hlater hsame hes hes',
      hsame.logsAt_dir hplain hlater hes rfl hes' rfl]
  unfold discover
  rw [Work.run_bind, Work.run_bind, Work.run_isDir, Work.run_isDir, hroot, hroot']
  dsimp only
  rw [if_pos rfl, Work.run_bind, Work.run_bind, hresolve]
  rcases ((Discovery.resolve reach hints root).run disk).2 with e | ⟨_ | _, _⟩ <;> rfl

end NodeLogs
