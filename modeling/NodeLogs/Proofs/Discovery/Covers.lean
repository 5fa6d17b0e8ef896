import NodeLogs.Proofs.Discovery.Choice

/-! The runs below a root cover its logs. One run's logs after another's are those of the
root but for what lies directly in it, and where nothing else is left the root is the run
itself. The runs are ordered by their paths and the walk goes by names, and both come to the
same order. -/

namespace NodeLogs

/-! ### Parts of concatenations -/

section FlatMap

variable {α β : Type} {f : α → List β} {xs : List α}

/-- What contributes nothing can be left out. -/
theorem flatMap_filter {p : α → Bool} (h : ∀ x ∈ xs, p x = false → f x = []) :
    (xs.filter p).flatMap f = xs.flatMap f := by
  induction xs with
  | nil => rfl
  | cons x xs ih =>
    obtain ⟨hx, hxs⟩ := List.forall_mem_cons.mp h
    cases hp : p x with
    | false => rw [List.filter_cons_of_neg (by simp [hp]), ih hxs, List.flatMap_cons, hx hp,
        List.nil_append]
    | true => rw [List.filter_cons_of_pos hp, List.flatMap_cons, List.flatMap_cons, ih hxs]

/-- Where nothing comes twice, each element comes from one part. -/
theorem exists_filter_eq_singleton [DecidableEq β] (hnodup : (xs.flatMap f).Nodup) {y : β}
    (hy : y ∈ xs.flatMap f) : ∃ x, xs.filter (fun x => decide (y ∈ f x)) = [x] := by
  induction xs with
  | nil => cases hy
  | cons x xs ih =>
    rw [List.flatMap_cons] at hnodup hy
    obtain ⟨-, hrest, hapart⟩ := List.nodup_append.mp hnodup
    by_cases hx : y ∈ f x
    · refine ⟨x, ?_⟩
      rw [List.filter_cons_of_pos (by simpa using hx), List.filter_eq_nil_iff.mpr fun z hz => ?_]
      have hnot : y ∉ xs.flatMap f := fun hmem => hapart y hx y hmem rfl
      simpa using fun hyz => hnot (List.mem_flatMap.mpr ⟨z, hz, hyz⟩)
    · rw [List.filter_cons_of_neg (by simpa using hx)]
      exact ih hrest ((List.mem_append.mp hy).resolve_left hx)

end FlatMap

/-- To leave entries out does not change the order of the others. -/
theorem byName_filter {ν : Type} {es : List (Name × ν)} (h : (es.map Prod.fst).Nodup)
    (P : Name × ν → Bool) : byName (es.filter P) = (byName es).filter P :=
  byName_eq ((perm_sortBy _ es).filter P) ((byName_pairwise h).filter P)

/-! ### How deep files lie -/

namespace Node

theorem height_le_heights {es : List (Name × Node)} {e : Name × Node} (he : e ∈ es) :
    e.2.height ≤ heights es := by
  induction es with
  | nil => cases he
  | cons x es ih =>
    obtain ⟨name, n⟩ := x
    unfold heights
    rcases List.mem_cons.mp he with rfl | he
    · exact Nat.le_max_left ..
    · exact (ih he).trans (Nat.le_max_right ..)

/-- Each step down leads to where fewer directories lie within one another. -/
theorem height_at? {root n : Node} {place : Place} (h : root.at? place = some n) :
    n.height + place.length ≤ root.height := by
  induction place generalizing root with
  | nil =>
    cases h
    exact Nat.le_refl _
  | cons name place ih =>
    rw [at?_cons] at h
    obtain ⟨c, hc, hn⟩ := Option.bind_eq_some_iff.mp h
    cases root with
    | dir es =>
      have hle := (ih hn).trans (height_le_heights (Keyed.mem_of_lookup hc))
      rw [show (dir es).height = heights es + 1 by rw [height], List.length_cons, ← Nat.add_assoc]
      exact Nat.succ_le_succ hle
    | file | link | device => cases hc

/-- A walk that goes deep enough finds the same files however deep it goes. -/
theorem filesBelow_eq {n : Node} (hplain : n.isPlain) {depth : Nat} (h : n.height ≤ depth) :
    n.filesBelow depth = n.filesBelow n.height := by
  refine (filesBelow_pairwise depth hplain).eq_of_mem_iff (filesBelow_pairwise n.height hplain)
    fun place => ?_
  simp only [mem_filesBelow hplain]
  refine and_congr_left fun ⟨born, bytes, access, hat⟩ => ?_
  have hdeep := height_at? hat
  omega

end Node

theorem logsAt_eq {n : Node} (hplain : n.isPlain) {depth : Nat} (h : n.height ≤ depth) (p : Path) :
    logsAt depth p n = logsAt n.height p n := by
  rw [logsAt, Node.filesBelow_eq hplain h, logsAt]

/-! ### Where logs lie -/

namespace Path

theorem names_below {place : Place} (hnames : ∀ name ∈ place, EntryName name) (p : Path) :
    (p.below place).names = p.names ++ place := by
  induction place generalizing p with
  | nil => simp [below]
  | cons name place ih =>
    obtain ⟨hname, hplace⟩ := List.forall_mem_cons.mp hnames
    rw [show p.below (name :: place) = (p.child name).below place from rfl, ih hplace,
      names_child hname.toStepName, List.append_assoc]
    rfl

/-- Is it the path of an entry of the directory that the other leads to? -/
def isEntryOf (p dir : Path) : Bool :=
  p.fileName?.any fun name => p = dir.child name

theorem isEntryOf_child {name : Name} (hname : EntryName name) (dir : Path) :
    (dir.child name).isEntryOf dir := by
  simp [isEntryOf, fileName?_child hname.toStepName]

/-- What lies deeper has no path of an entry. -/
theorem isEntryOf_below {name : Name} {place : Place} (hne : place ≠ [])
    (hnames : ∀ x ∈ name :: place, EntryName x) (dir : Path) :
    (dir.below (name :: place)).isEntryOf dir = false := by
  obtain ⟨above, last, hlast⟩ : ∃ above last, name :: place = above ++ [last] :=
    ⟨_, _, (List.dropLast_concat_getLast (List.cons_ne_nil name place)).symm⟩
  have hstep : StepName last := (hnames last (by simp [hlast])).toStepName
  have hfile : (dir.below (name :: place)).fileName? = some last := by
    rw [hlast, below, List.foldl_append]
    exact fileName?_child hstep _
  unfold isEntryOf
  rw [hfile, Option.any_some, decide_eq_false_iff_not]
  intro heq
  have hsame := congrArg names heq
  rw [names_below hnames, names_child hstep] at hsame
  simpa [hne] using congrArg List.length hsame

end Path

/-- No log is found twice. -/
theorem logsAt_nodup (depth : Nat) (p : Path) {n : Node} (hplain : n.isPlain) :
    (logsAt depth p n).Nodup := by
  refine List.pairwise_filterMap.mpr ((Node.filesBelow_pairwise depth hplain).imp_of_mem
    fun {a b} ha hb hab file hfile other hother heq => ?_)
  have hnames {place : Place} (h : place ∈ n.filesBelow depth) : ∀ name ∈ place, EntryName name :=
    entryName_of_hasFile hplain ((Node.mem_filesBelow hplain).mp h).2
  have hpath : p.below a = p.below b := by
    rw [← LogFile.ofPath?_path hfile, ← LogFile.ofPath?_path hother, heq]
  have hsame := congrArg Path.names hpath
  rw [Path.names_below (hnames ha), Path.names_below (hnames hb), List.append_cancel_left_eq] at hsame
  exact List.lt_irrefl b (hsame ▸ hab)

/-- The logs of an entry lie directly in the directory if the entry is no directory, and deeper
if it is one. -/
theorem logsAt_entry {e : Name × Node} (hname : EntryName e.1) (hplain : e.2.isPlain) (depth : Nat)
    (dir : Path) : (logsAt depth (dir.child e.1) e.2).filter (fun file => !file.path.isEntryOf dir) =
      if e.2.isDir then logsAt depth (dir.child e.1) e.2 else [] := by
  obtain ⟨name, n⟩ := e
  cases n with
  | dir es =>
    refine List.filter_eq_self.mpr fun file hfile => ?_
    obtain ⟨below, hpath, -, hhas, hne, -⟩ := exists_of_mem_logsAt hplain rfl hfile
    have hdeep := Path.isEntryOf_below hne
      (List.forall_mem_cons.mpr ⟨hname, entryName_of_hasFile hplain hhas⟩) dir
    rw [hpath, show (dir.child name).below below = dir.below (name :: below) from rfl, hdeep]
    rfl
  | file born bytes access =>
    refine List.filter_eq_nil_iff.mpr fun file hfile => ?_
    rw [logsAt_file, Option.mem_toList] at hfile
    rw [LogFile.ofPath?_path hfile, Path.isEntryOf_child hname dir]
    decide
  | link | device => cases depth <;> rfl

/-! ### The logs of runs -/

namespace Disk

/-- The logs that a walk finds below a path. -/
def logsBelow (disk : Disk) (reach : Nat) (p : Path) : List LogFile :=
  ((logFiles reach p).run disk).2

/-- Runs cover the logs below a root. -/
structure Covers (disk : Disk) (reach : Nat) (root : Path) (runs : List Run) : Prop where
  /-- One after another they have the logs that do not lie directly in the root, in the order
  in which a walk from the root finds them, or all logs if there are no others. -/
  logs : runs.flatMap (fun run => disk.logsBelow reach run.path) =
    match (disk.logsBelow reach root).filter fun file => !file.path.isEntryOf root with
    | [] => disk.logsBelow reach root
    | deeper => deeper
  /-- A log that lies deeper belongs to one of the runs, and only to that. -/
  one : ∀ file ∈ disk.logsBelow reach root, file.path.isEntryOf root = false →
    ∃ run, runs.filter (fun run => decide (file ∈ disk.logsBelow reach run.path)) = [run]
  /-- There are no runs only where there are no logs. -/
  none : runs = [] ↔ disk.logsBelow reach root = []

end Disk

namespace Discovery

section Root

variable {disk : Disk} (hplain : disk.Plain) {root : Path} {place : Place}
  (hroot : disk.LeadsTo root place) {es : List (Name × Node)}
  (hes : disk.root.at? place = some (.dir es)) {reach : Nat} (hreach : disk.root.height ≤ reach)
include hplain hroot hes hreach

/-- The logs below an entry are found from the entry as from the directory. -/
theorem logsBelow_entry {e : Name × Node} (he : e ∈ es) :
    disk.logsBelow reach (root.child e.1) = logsAt e.2.height (root.child e.1) e.2 := by
  obtain ⟨hloc, hat⟩ := node_entry hplain hroot hes he
  have hdeep := Node.height_at? hat
  rw [Disk.logsBelow, logFiles_run hplain reach hloc hat,
    logsAt_eq (Node.isPlain_at? hplain.tree hat) (by omega)]

omit hroot in
/-- The logs below the root are those below its entries. -/
theorem logsAt_root : logsAt reach root (.dir es) =
    (byName es).flatMap fun e => logsAt e.2.height (root.child e.1) e.2 := by
  have hdeep := Node.height_at? hes
  rw [show (Node.dir es).height = Node.heights es + 1 by rw [Node.height]] at hdeep
  obtain ⟨depth, rfl⟩ : ∃ depth, reach = depth + 1 := ⟨reach - 1, by omega⟩
  rw [logsAt_dir]
  refine List.flatMap_congr fun e he => ?_
  have he := mem_byName.mp he
  have hle := Node.height_le_heights he
  have hentry := ((Node.isPlain_dir.mp (Node.isPlain_at? hplain.tree hes)).2 e he).2
  exact logsAt_eq hentry (by omega) _

/-- The runs among the entries have the logs that do not lie directly in the root. -/
theorem runsIn_logs : (runsIn reach root es).flatMap (fun run => disk.logsBelow reach run.path) =
    (logsAt reach root (.dir es)).filter fun file => !file.path.isEntryOf root := by
  obtain ⟨hnodup, hentries⟩ := Node.isPlain_dir.mp (Node.isPlain_at? hplain.tree hes)
  have hsubdir {e : Name × Node} (he : e ∈ subdirs es) : e ∈ es :=
    (List.mem_filter.mp (mem_byName.mp he)).1
  have hlogs {e : Name × Node} (he : e ∈ es) : logsAt reach (root.child e.1) e.2 =
      logsAt e.2.height (root.child e.1) e.2 := by
    have hdeep := Node.height_at? (node_entry hplain hroot hes he).2
    exact logsAt_eq (hentries e he).2 (by omega) _
  calc (runsIn reach root es).flatMap (fun run => disk.logsBelow reach run.path)
    _ = ((subdirs es).filter fun e => !(logsAt reach (root.child e.1) e.2).isEmpty).flatMap
          fun e => logsAt e.2.height (root.child e.1) e.2 := by
      rw [runsIn, List.flatMap_map]
      exact List.flatMap_congr fun e he =>
        logsBelow_entry hplain hroot hes hreach (hsubdir (List.mem_filter.mp he).1)
    _ = (subdirs es).flatMap fun e => logsAt e.2.height (root.child e.1) e.2 := by
      refine flatMap_filter fun e he hempty => ?_
      rw [← hlogs (hsubdir he)]
      simpa using hempty
    _ = ((byName es).filter fun e => e.2.isDir).flatMap fun e =>
          (logsAt e.2.height (root.child e.1) e.2).filter fun file => !file.path.isEntryOf root := by
      rw [subdirs, byName_filter hnodup]
      refine List.flatMap_congr fun e he => ?_
      obtain ⟨he, hdir⟩ := List.mem_filter.mp he
      obtain ⟨hname, hplain'⟩ := hentries e (mem_byName.mp he)
      rw [logsAt_entry hname hplain', if_pos hdir]
    _ = (byName es).flatMap fun e =>
          (logsAt e.2.height (root.child e.1) e.2).filter fun file => !file.path.isEntryOf root := by
      refine flatMap_filter fun e he hdir => ?_
      obtain ⟨hname, hplain'⟩ := hentries e (mem_byName.mp he)
      rw [logsAt_entry hname hplain', if_neg (by simp [hdir])]
    _ = (logsAt reach root (.dir es)).filter fun file => !file.path.isEntryOf root := by
      rw [logsAt_root hplain hes hreach, List.filter_flatMap]

omit hreach in
/-- Each of the runs among the entries has logs. -/
theorem logsBelow_ne_nil {run : Run} (hrun : run ∈ runsIn reach root es) :
    disk.logsBelow reach run.path ≠ [] := by
  obtain ⟨e, he, rfl⟩ := List.mem_map.mp hrun
  obtain ⟨he, hlogs⟩ := List.mem_filter.mp he
  obtain ⟨hloc, hat⟩ := node_entry hplain hroot hes (List.mem_filter.mp (mem_byName.mp he)).1
  have hpath : (Run.ofPath (root.child e.1)).path = root.child e.1 := rfl
  rw [hpath, Disk.logsBelow, logFiles_run hplain reach hloc hat]
  simpa using hlogs

end Root

/-- On a plain disk, without hints, the runs that are found cover the logs below the root. -/
theorem resolve_covers {disk : Disk} (hplain : disk.Plain) {reach : Nat}
    (hreach : disk.root.height ≤ reach) {hints : Hints} (hhints : hints.stem? = none) {root : Path}
    (hroot : disk.isDir root) :
    ∃ runs, ((resolve reach hints root).run disk).2 = .ok (runs, []) ∧
      disk.Covers reach root runs := by
  obtain ⟨hne, place, hleads⟩ := hplain.leadsTo_of_isDir hroot
  obtain ⟨es, hes⟩ := hleads.hasDir
  have hbelow : disk.logsBelow reach root = logsAt reach root (.dir es) := by
    rw [Disk.logsBelow, logFiles_run hplain reach (hleads.locate_eq hplain hne true) hes]
  have hnodup := logsAt_nodup reach root (Node.isPlain_at? hplain.tree hes)
  have hruns := runsIn_logs hplain hleads hes hreach
  have hfound := resolve_run hplain hne hleads hes reach hints
  have hsome (run : Run) (h : run ∈ runsIn reach root es) :=
    logsBelow_ne_nil hplain hleads hes h
  unfold choose at hfound
  rw [hhints] at hfound
  rw [← hbelow] at hnodup hruns hfound
  cases hcases : runsIn reach root es with
  | cons run runs =>
    rw [hcases] at hfound hruns hsome
    refine ⟨_, hfound, ?_, fun file hfile hdeep => ?_, by simp, fun hnil => ?_⟩
    · rw [hruns]
      split
      next hnil =>
        rw [hnil] at hruns
        exact absurd (List.flatMap_eq_nil_iff.mp hruns run List.mem_cons_self)
          (hsome run List.mem_cons_self)
      · rfl
    · refine exists_filter_eq_singleton (hruns ▸ hnodup.filter _) (hruns ▸ ?_)
      exact List.mem_filter.mpr ⟨hfile, by simp [hdeep]⟩
    · rw [hnil] at hruns
      exact absurd (List.flatMap_eq_nil_iff.mp hruns run List.mem_cons_self)
        (hsome run List.mem_cons_self)
  | nil =>
    rw [hcases] at hfound hruns
    have hnone : (disk.logsBelow reach root).filter (fun file => !file.path.isEntryOf root) = [] :=
      hruns.symm
    refine ⟨_, hfound, ?_, fun file hfile hdeep => ?_, ?_⟩
    · rw [hnone]
      cases hlogs : disk.logsBelow reach root with
      | nil => rfl
      | cons => simp [Run.ofPath, hlogs]
    · exact absurd hdeep (by simpa using List.filter_eq_nil_iff.mp hnone file hfile)
    · cases hlogs : disk.logsBelow reach root <;> simp

end Discovery

/-! ### Logs beside and below -/

namespace TwoDepths

def name (s : String) : Name :=
  Utf8.encode s.toList

/-- The root has a log of its own; a subdirectory has two, the first of them deeper down. -/
def disk : Disk where
  root := .dir [(name "stdout_1.log", .file 0 [] .normal),
    (name "x", .dir [(name "stdout_0.log", .file 1 [] .normal),
      (name "q", .dir [(name "stderr_2.log", .file 2 [] .normal)])])]
  cwd := []

end TwoDepths

namespace Discovery

open TwoDepths in
theorem resolve_covers_twoDepths : disk.Plain ∧ disk.root.height ≤ 3 ∧ disk.isDir (.ofString ".") ∧
    (disk.logsBelow 3 (.ofString ".")).map LogFile.node = [1, 2, 0] ∧
      ∃ runs, ((resolve 3 {} (.ofString ".")).run disk).2 = .ok (runs, []) ∧
        disk.Covers 3 (.ofString ".") runs := by
  have hplain : disk.Plain := by decide +kernel
  have hreach : disk.root.height ≤ 3 := by decide +kernel
  have hroot : disk.isDir (.ofString ".") := by decide +kernel
  exact ⟨hplain, hreach, hroot, by decide +kernel, resolve_covers hplain hreach rfl hroot⟩

end Discovery

end NodeLogs
