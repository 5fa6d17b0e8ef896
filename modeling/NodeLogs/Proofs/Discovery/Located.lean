import Mathlib.Data.List.Forall2
import Mathlib.Data.List.TakeDrop
import Mathlib.Data.List.TakeWhile
import NodeLogs.Proofs.Discovery.Hints
import NodeLogs.Proofs.Text.Coding
import NodeLogs.Proofs.Tree.Linked

/-! Which logs are found below a root, on any disk. They are the regular files that carry the
name of a log and that real directories lead to, and the links to such files; a link to a
directory is followed at the root only. Each is found once. The walk takes what lies in a
directory right behind the directory, by name, so that places come in their order name by
name; the spellings of the paths are not in that order. -/

namespace NodeLogs

/-! ### Names of logs -/

/-- No log has a slash in its name. -/
theorem NodeLog.slash_not_mem {name : Text} {node : Nat} (h : nodeOfText? name = some node) :
    '/' ∉ name := by
  have hfold {cs ds : Text} (hds : '/' ∉ ds) (h : cs.map fold = ds) : '/' ∉ cs := fun hmem =>
    hds (h ▸ List.mem_map.mpr ⟨'/', hmem, by decide⟩)
  unfold nodeOfText? at h
  rw [List.splitAt_eq] at h
  dsimp only at h
  split at h
  next rest hrest =>
    rw [List.span_eq_takeWhile_dropWhile] at h
    dsimp only at h
    split at h
    next hname =>
      obtain ⟨hstream, htail⟩ := Bool.and_eq_true_iff.mp hname
      have hstream : '/' ∉ name.take 6 := by
        rcases List.mem_pair.mp (List.contains_iff_mem.mp hstream) with h | h
        · exact hfold (by decide) h
        · exact hfold (by decide) h
      have htail : '/' ∉ rest.dropWhile isAsciiDigit := hfold (by decide) (of_decide_eq_true htail)
      have hdigits : '/' ∉ rest.takeWhile isAsciiDigit := fun hmem =>
        absurd (List.mem_takeWhile_imp hmem) (by decide)
      have hrest' : '/' ∉ rest := by
        rw [← List.takeWhile_append_dropWhile (p := isAsciiDigit) (l := rest), List.mem_append]
        exact not_or.mpr ⟨hdigits, htail⟩
      rw [← List.take_append_drop 6 name, hrest]
      simp [hstream, hrest']
    · cases h
  · cases h

/-- A path that has the name of a log as a whole ends with it. -/
theorem NodeLog.nodeOfName?_fileName? (p : Path) :
    nodeOfName? (p.fileName?.getD p.bytes) = p.fileName?.bind nodeOfName? := by
  cases hname : p.fileName? with
  | some name => rfl
  | none =>
    refine Option.eq_none_iff_forall_ne_some.mpr fun node hnode => ?_
    obtain ⟨cs, hcs, hcsnode⟩ := Option.bind_eq_some_iff.mp hnode
    have hbytes : Utf8.encode cs = p.bytes := Utf8.encode_of_decode? hcs
    have hslash : Path.slash ∉ p.bytes := by
      rw [← hbytes, show Path.slash = UInt8.ofNat 0x2F from rfl, Utf8.mem_encode (by decide)]
      rintro ⟨c, hc, hchar⟩
      obtain rfl : c = '/' := Char.toNat_inj.mp hchar
      exact slash_not_mem hcsnode hc
    have hother {bytes : Bytes} (hnone : nodeOfName? bytes = none) : p.bytes ≠ bytes := by
      rintro rfl
      rw [Option.getD_none, hnone] at hnode
      cases hnode
    have hnames : p.names = [] ++ [p.bytes] := by
      rw [Path.names, Path.pieces, splitAll_of_not_mem hslash]
      simp [hother (show nodeOfName? [] = none by decide +kernel)]
    rw [Path.fileName?_of_names hnames (hother (by decide +kernel)) (hother (by decide +kernel))] at hname
    cases hname

/-- The log that a path names is the one that its last name says. -/
theorem LogFile.ofPath?_eq (p : Path) :
    ofPath? p = (p.fileName?.bind NodeLog.nodeOfName?).map (⟨p, ·⟩) := by
  rw [ofPath?, NodeLog.nodeOfName?_fileName?]

/-! ### The places of a tree -/

namespace Node

/-- The places of all that lies in at most so many directories, as a walk gets to them. -/
def placesBelow : Nat → Node → List Place
  | depth + 1, dir es =>
    [] :: (byName es).flatMap fun (name, n) => (placesBelow depth n).map (name :: ·)
  | _, _ => [[]]

theorem placesBelow_of_not_dir {n : Node} (h : n.isDir = false) (depth : Nat) :
    n.placesBelow depth = [[]] := by
  cases n with
  | dir es => cases h
  | file | link | device => cases depth <;> rfl

theorem mem_placesBelow {depth : Nat} {n : Node} (hproper : n.isProper) {place : Place} :
    place ∈ n.placesBelow depth ↔ place.length ≤ depth ∧ ∃ m, n.at? place = some m := by
  have hnone {n : Node} (hdir : n.isDir = false) (depth : Nat) (place : Place) :
      place ∈ n.placesBelow depth ↔ place.length ≤ depth ∧ ∃ m, n.at? place = some m := by
    rw [placesBelow_of_not_dir hdir, List.mem_singleton]
    cases place with
    | nil => simp
    | cons name place =>
      have hat := at?_cons_eq_none (n := n) (by rintro es rfl; cases hdir) name place
      simp [hat]
  induction depth generalizing n place with
  | zero => cases n <;> cases place <;> simp [placesBelow]
  | succ depth ih =>
    cases n with
    | dir es =>
      obtain ⟨hnodup, hes⟩ := isProper_dir.mp hproper
      simp only [placesBelow, List.mem_cons, List.mem_flatMap, List.mem_map, mem_byName]
      cases place with
      | nil => simp
      | cons name place =>
        simp only [List.cons.injEq, List.length_cons, Nat.add_le_add_iff_right, at?_cons]
        constructor
        · rintro (h | ⟨⟨x, c⟩, hmem, q, hq, rfl, rfl⟩)
          · cases h
          · obtain ⟨hlength, m, hm⟩ := (ih (hes _ hmem).2).mp hq
            refine ⟨hlength, m, ?_⟩
            rw [show (dir es).child? x = some c from Keyed.lookup_of_mem hnodup hmem]
            exact hm
        · rintro ⟨hlength, m, hm⟩
          obtain ⟨c, hc, hm⟩ := Option.bind_eq_some_iff.mp hm
          have hmem := Keyed.mem_of_lookup hc
          exact .inr ⟨(name, c), hmem, place, (ih (hes _ hmem).2).mpr ⟨hlength, m, hm⟩, rfl, rfl⟩
    | file | link | device => exact hnone rfl _ _

/-- A directory comes before what lies in it, and that comes in the order of names. -/
theorem placesBelow_pairwise (depth : Nat) {n : Node} (hproper : n.isProper) :
    (n.placesBelow depth).Pairwise (· < ·) := by
  induction depth generalizing n with
  | zero => cases n <;> exact List.pairwise_singleton _ _
  | succ depth ih =>
    cases n with
    | dir es =>
      obtain ⟨hnodup, hes⟩ := isProper_dir.mp hproper
      refine List.pairwise_cons.mpr ⟨fun place hplace => ?_, List.pairwise_flatMap.mpr
        ⟨fun ⟨name, c⟩ hmem => ?_, (byName_pairwise hnodup).imp fun {a b} hab p hp q hq => ?_⟩⟩
      · obtain ⟨e, -, hplace⟩ := List.mem_flatMap.mp hplace
        obtain ⟨q, -, rfl⟩ := List.mem_map.mp hplace
        exact List.nil_lt_cons _ _
      · refine List.pairwise_map.mpr ((ih (hes _ (mem_byName.mp hmem)).2).imp fun h => ?_)
        exact List.cons_lt_cons_self.mpr h
      · obtain ⟨p, -, rfl⟩ := List.mem_map.mp hp
        obtain ⟨q, -, rfl⟩ := List.mem_map.mp hq
        exact List.cons_lt_cons_iff.mpr (.inl hab)
    | file | link | device => exact List.pairwise_singleton _ _

/-- What lies in proper directories has a place of proper names. -/
theorem entryName_of_mem {root n : Node} (hproper : root.isProper) {place : Place}
    (h : root.at? place = some n) : ∀ name ∈ place, EntryName name := by
  induction place generalizing root with
  | nil => simp
  | cons name place ih =>
    rw [at?_cons] at h
    obtain ⟨c, hc, hn⟩ := Option.bind_eq_some_iff.mp h
    cases root with
    | dir es =>
      obtain ⟨hname, hbelow⟩ := (isProper_dir.mp hproper).2 _ (Keyed.mem_of_lookup hc)
      exact List.forall_mem_cons.mpr ⟨hname, ih hbelow hn⟩
    | file | link | device => cases hc

end Node

/-! ### The walk -/

namespace Disk

/-- The log at a path, if its name says so and a regular file is there. -/
def logAt? (disk : Disk) (p : Path) : Option LogFile :=
  (LogFile.ofPath? p).filter fun file => disk.isFile file.path

/-- The logs at the places below a node, from its path on. -/
def logsFrom (disk : Disk) (depth : Nat) (p : Path) (n : Node) : List LogFile :=
  (n.placesBelow depth).filterMap fun place => disk.logAt? (p.below place)

variable (disk : Disk) (p : Path)

theorem logsFrom_dir (depth : Nat) (es : List (Name × Node)) :
    disk.logsFrom (depth + 1) p (.dir es) = (disk.logAt? p).toList ++
      (byName es).flatMap fun (name, n) => disk.logsFrom depth (p.child name) n := by
  have hbelow : ((byName es).flatMap fun (name, n) => (n.placesBelow depth).map (name :: ·)).filterMap
      (fun place => disk.logAt? (p.below place)) =
        (byName es).flatMap fun (name, n) => disk.logsFrom depth (p.child name) n := by
    simp [logsFrom, List.filterMap_flatMap, List.filterMap_map, Function.comp_def, Path.below]
  rw [← hbelow, logsFrom, Node.placesBelow, List.filterMap_cons]
  simp only [Path.below, List.foldl_nil]
  cases disk.logAt? p <;> rfl

theorem logsFrom_zero (n : Node) : disk.logsFrom 0 p n = (disk.logAt? p).toList := by
  cases h : disk.logAt? p <;> cases n <;> simp [logsFrom, Node.placesBelow, Path.below, h]

theorem logsFrom_of_not_dir {n : Node} (h : n.isDir = false) (depth : Nat) :
    disk.logsFrom depth p n = (disk.logAt? p).toList := by
  cases hlog : disk.logAt? p <;>
    simp [logsFrom, Node.placesBelow_of_not_dir h, Path.below, hlog]

end Disk

namespace Walk

variable {σ : Type} {v : Visitor σ} {disk : Disk}

theorem logAt?_run (disk : Disk) (p : Path) : (logAt? p).run disk = (disk, disk.logAt? p) := by
  unfold logAt? Disk.logAt? LogFile.ofPath?
  cases NodeLog.nodeOfName? (p.fileName?.getD p.bytes) with
  | none => rfl
  | some node => cases hfile : disk.isFile p <;> simp [hfile, Option.filter]

section Still

variable (hv : ∀ file s, ((v.visit file s).run disk).1 = disk)

theorem visitAt_run (p : Path) {s : σ} (hgoing : v.isOver s = false) :
    (visitAt v p s).run disk = (visitAll v (disk.logAt? p).toList s).run disk := by
  unfold visitAt
  rw [Work.run_bind, logAt?_run]
  cases disk.logAt? p with
  | none => rfl
  | some file => simp [visitAll, hgoing]

include hv

theorem visitAll_still (files : List LogFile) (s : σ) : ((visitAll v files s).run disk).1 = disk := by
  induction files generalizing s with
  | nil => rfl
  | cons file files ih =>
    unfold visitAll
    split
    · rfl
    · rw [Work.run_bind, hv]
      exact ih _

theorem entries_run {below : Path → Bool → σ → Work σ} {dir : Path} {es : List (Name × Node)}
    {logs : Name × Node → List LogFile}
    (hbelow : ∀ e ∈ es, ∀ s, v.isOver s = false →
      (below (dir.child e.1) e.2.isDir s).run disk = (visitAll v (logs e) s).run disk) (s : σ) :
    (entries v below dir (es.map fun e => (e.1, e.2.isDir)) s).run disk =
      (visitAll v (es.flatMap logs) s).run disk := by
  induction es generalizing s with
  | nil => rfl
  | cons e es ih =>
    obtain ⟨he, hes⟩ := List.forall_mem_cons.mp hbelow
    cases hover : v.isOver s with
    | true => rw [entries_over hover, visitAll_over hover]
    | false =>
      rw [List.flatMap_cons, visitAll_append, List.map_cons, entries, hover]
      simp only [Bool.false_eq_true, if_false, Work.run_bind, he s hover, visitAll_still hv]
      exact ih hes _

/-- A walk that leaves the disk alone visits the logs at the places below a node. -/
theorem descend_run (depth : Nat) {p : Path} {n : Node} (hproper : n.isProper)
    (hp : n.isDir → disk.node p = .ok n) {s : σ} (hgoing : v.isOver s = false) :
    (descend v depth p n.isDir s).run disk = (visitAll v (disk.logsFrom depth p n) s).run disk := by
  induction depth generalizing p n s with
  | zero =>
    have henter : enter v 0 p n.isDir = pure := by cases n.isDir <;> rfl
    rw [descend_eq, henter, bind_pure, visitAt_run p hgoing, Disk.logsFrom_zero]
  | succ depth ih =>
    cases n with
    | dir es =>
      have hnode := hp rfl
      have hlist : disk.list p = .ok (es.map fun e => (e.1, e.2.isDir)) := by
        simp [Disk.list, hnode]
      have hsort : sortEntries (es.map fun e => (e.1, e.2.isDir)) =
          (byName es).map fun e => (e.1, e.2.isDir) :=
        sortBy_map (fun e : Name × Node => (e.1, e.2.isDir)) _ es
      rw [descend_eq, Disk.logsFrom_dir, visitAll_append, Work.run_bind, Work.run_bind,
        visitAt_run p hgoing, visitAll_still hv]
      generalize ((visitAll v (disk.logAt? p).toList s).run disk).2 = s'
      show (enter v (depth + 1) p true s').run disk = _
      unfold enter
      rw [Work.run_bind, Work.run_list, hlist]
      dsimp only
      rw [hsort]
      refine entries_run hv (fun e he s hgoing => ?_) s'
      have he := mem_byName.mp he
      obtain ⟨hnodup, hes⟩ := Node.isProper_dir.mp hproper
      obtain ⟨hname, hbelow⟩ := hes e he
      refine ih hbelow (fun hdir => ?_) hgoing
      refine Disk.node_child hnode hname (Keyed.lookup_of_mem hnodup he) fun target hlink => ?_
      rw [hlink] at hdir
      cases hdir
    | file | link | device =>
      rw [descend_eq, show Node.isDir _ = false from rfl, enter_false, bind_pure,
        visitAt_run p hgoing, Disk.logsFrom_of_not_dir _ _ rfl]

/-- A walk that begins where nothing is finds nothing. -/
theorem walk_run (reach : Nat) (hproper : disk.root.isProper) (start : Path) {s : σ}
    (hgoing : v.isOver s = false) : (walk v reach start s).run disk =
      (visitAll v (match disk.node start with
        | .ok n => disk.logsFrom reach start n
        | .error _ => []) s).run disk := by
  unfold walk
  rw [Work.run_bind, Work.run_isDir]
  cases hnode : disk.node start with
  | error e =>
    have hfile : disk.isFile start = false := by simp [Disk.isFile, hnode]
    have hlog : disk.logAt? start = none := by
      unfold Disk.logAt?
      cases h : LogFile.ofPath? start with
      | none => rfl
      | some file => simp [LogFile.ofPath?_path h, hfile]
    rw [show disk.isDir start = false by simp [Disk.isDir, hnode], descend_eq, enter_false,
      bind_pure, visitAt_run start hgoing, hlog]
    rfl
  | ok n =>
    have hdir : disk.isDir start = n.isDir := by simp [Disk.isDir, hnode]
    rw [hdir]
    obtain ⟨place, -, hat⟩ := disk.node_eq_ok.mp hnode
    exact descend_run hv reach (Node.namesAre_at? hproper hat) (fun _ => hnode) hgoing

end Still

end Walk

/-! ### What is found -/

/-- What a partial function makes of elements goes with those that it makes something of. -/
theorem forall₂_filterMap {α β : Type} {f : α → Option β} {R : α → β → Prop} {xs : List α}
    (h : ∀ x ∈ xs, ∀ y, f x = some y → R x y) :
    List.Forall₂ R (xs.filter fun x => (f x).isSome) (xs.filterMap f) := by
  induction xs with
  | nil => exact .nil
  | cons x xs ih =>
    obtain ⟨hx, hxs⟩ := List.forall_mem_cons.mp h
    cases hy : f x with
    | none => simpa [hy] using ih hxs
    | some y => simpa [hy] using ⟨hx y hy, ih hxs⟩

namespace Disk

/-- The log of a node lies at a place below a root: real directories lead there from the root,
and there is a regular file or a link to one, whose path ends with the name of the log. -/
structure LogBelow (disk : Disk) (root : Path) (place : Place) (node : Nat) : Prop where
  there : ∃ n m, disk.node root = .ok n ∧ n.at? place = some m ∧
    (m.isFile ∨ (∃ target, m = .link target) ∧ disk.isFile (root.below place))
  named : (root.below place).fileName?.bind NodeLog.nodeOfName? = some node

/-- Files are the logs below a root, at places in ascending order, and no path comes twice. -/
structure Locates (disk : Disk) (root : Path) (places : List Place) (files : List LogFile) :
    Prop where
  mem : ∀ place, place ∈ places ↔ ∃ node, disk.LogBelow root place node
  ascending : places.Pairwise (· < ·)
  found : List.Forall₂ (fun place file =>
    file.path = root.below place ∧ disk.LogBelow root place file.node) places files
  once : (files.map LogFile.path).Nodup

variable {disk : Disk} {root : Path}

theorem logAt?_eq_some {p : Path} {file : LogFile} : disk.logAt? p = some file ↔
    file.path = p ∧ p.fileName?.bind NodeLog.nodeOfName? = some file.node ∧ disk.isFile p := by
  obtain ⟨path, node⟩ := file
  rw [logAt?, LogFile.ofPath?_eq, Option.filter_eq_some_iff, Option.map_eq_some_iff]
  constructor
  · rintro ⟨⟨node, hnode, heq⟩, hfile⟩
    cases heq
    exact ⟨rfl, hnode, hfile⟩
  · rintro ⟨rfl, hnode, hfile⟩
    exact ⟨⟨node, hnode, rfl⟩, hfile⟩

/-- Where something lies below a root, the log at its path is the log at its place. -/
theorem logAt?_below {n m : Node} (hn : disk.node root = .ok n) (hproper : n.isProper)
    {place : Place} (hm : n.at? place = some m) {file : LogFile} :
    disk.logAt? (root.below place) = some file ↔
      file.path = root.below place ∧ disk.LogBelow root place file.node := by
  rw [logAt?_eq_some]
  refine and_congr_right fun _ => ⟨fun ⟨hname, hfile⟩ => ⟨⟨n, m, hn, hm, ?_⟩, hname⟩,
    fun ⟨⟨n', m', hn', hm', hfile⟩, hname⟩ => ⟨hname, ?_⟩⟩
  · by_cases hlink : ∃ target, m = .link target
    · exact .inr ⟨hlink, hfile⟩
    · have hnode := node_below hn hproper hm fun target h => hlink ⟨target, h⟩
      simpa [isFile, hnode, hlink] using hfile
  · obtain rfl : n = n' := by simpa [hn] using hn'
    obtain rfl : m = m' := by simpa [hm] using hm'
    rcases hfile with hfile | ⟨-, hfile⟩
    · have hnode := node_below hn hproper hm (by rintro target rfl; cases hfile)
      simpa [isFile, hnode] using hfile
    · exact hfile

/-- The logs from a root's node on are those below the root. -/
theorem locates_logsFrom {n : Node} (hn : disk.node root = .ok n) (hproper : n.isProper)
    {reach : Nat} (hreach : n.height ≤ reach) :
    disk.Locates root
      ((n.placesBelow reach).filter fun place => (disk.logAt? (root.below place)).isSome)
      (disk.logsFrom reach root n) := by
  have hat {place : Place} (h : place ∈ n.placesBelow reach) : ∃ m, n.at? place = some m :=
    ((Node.mem_placesBelow hproper).mp h).2
  have hnames {place : Place} (h : place ∈ n.placesBelow reach) : ∀ name ∈ place, EntryName name :=
    (hat h).elim fun _ hm => Node.entryName_of_mem hproper hm
  have hlog {place : Place} (h : place ∈ n.placesBelow reach) (file : LogFile) :
      disk.logAt? (root.below place) = some file ↔
        file.path = root.below place ∧ disk.LogBelow root place file.node :=
    (hat h).elim fun _ hm => logAt?_below hn hproper hm
  have hsorted := Node.placesBelow_pairwise reach hproper
  refine ⟨fun place => ?_, hsorted.filter _, ?_, ?_⟩
  · rw [List.mem_filter, Option.isSome_iff_exists]
    constructor
    · rintro ⟨hmem, file, hfile⟩
      exact ⟨file.node, ((hlog hmem file).mp hfile).2⟩
    · rintro ⟨node, hbelow⟩
      obtain ⟨n', m, hn', hm, -⟩ := hbelow.there
      obtain rfl : n = n' := by simpa [hn] using hn'
      have hlength := Node.height_at? hm
      have hmem : place ∈ n.placesBelow reach :=
        (Node.mem_placesBelow hproper).mpr ⟨by omega, m, hm⟩
      exact ⟨hmem, ⟨root.below place, node⟩, (hlog hmem _).mpr ⟨rfl, hbelow⟩⟩
  · exact forall₂_filterMap fun place hplace file => (hlog hplace file).mp
  · refine List.pairwise_map.mpr (List.pairwise_filterMap.mpr (hsorted.imp_of_mem
      fun {a b} ha hb hab file hfile other hother hpath => ?_))
    rw [((hlog ha file).mp hfile).1, ((hlog hb other).mp hother).1] at hpath
    have hsame := congrArg Path.names hpath
    rw [Path.names_below (hnames ha), Path.names_below (hnames hb),
      List.append_cancel_left_eq] at hsame
    exact List.lt_irrefl b (hsame ▸ hab)

end Disk

theorem logFiles_run_of_isProper {disk : Disk} (hproper : disk.root.isProper) (reach : Nat)
    (root : Path) : (logFiles reach root).run disk = (disk, match disk.node root with
      | .ok n => disk.logsFrom reach root n
      | .error _ => []) := by
  unfold logFiles
  rw [Work.run_bind, Walk.walk_run (fun _ _ => rfl) reach hproper root rfl, Walk.visitAll_push]
  simp

theorem looksLikeRun_run {disk : Disk} (hproper : disk.root.isProper) (reach : Nat)
    (root : Path) : (looksLikeRun reach root).run disk =
      (disk, !((logFiles reach root).run disk).2.isEmpty) := by
  rw [logFiles_run_of_isProper hproper, looksLikeRun,
    Walk.walk_run (fun _ _ => rfl) reach hproper root rfl, Walk.visitAll_any]

/-- The walk finds exactly the logs below its root, each once and in the order of their places,
and a directory looks like a run if there are any. -/
theorem logFiles_locates {disk : Disk} (hproper : disk.root.isProper) {reach : Nat}
    (hreach : disk.root.height ≤ reach) (root : Path) :
    ∃ places files looks, (logFiles reach root).run disk = (disk, files) ∧
      disk.Locates root places files ∧ (looksLikeRun reach root).run disk = (disk, looks) ∧
        (looks ↔ ∃ place node, disk.LogBelow root place node) := by
  have hlooks {places : List Place} {files : List LogFile} (h : disk.Locates root places files) :
      (!files.isEmpty) = true ↔ ∃ place node, disk.LogBelow root place node := by
    have hempty : files = [] ↔ places = [] := by
      rw [← List.length_eq_zero_iff, ← List.length_eq_zero_iff, h.found.length_eq]
    simp only [← h.mem]
    simp [hempty, List.eq_nil_iff_forall_not_mem]
  have hfiles := logFiles_run_of_isProper hproper reach root
  have hrun := looksLikeRun_run hproper reach root
  rw [hfiles] at hrun
  cases hnode : disk.node root with
  | error e =>
    rw [hnode] at hfiles hrun
    have hnone : disk.Locates root [] [] := by
      refine ⟨fun place => iff_of_false List.not_mem_nil ?_, .nil, .nil, .nil⟩
      rintro ⟨node, ⟨n, m, hn, -⟩, -⟩
      rw [hnode] at hn
      cases hn
    exact ⟨[], [], _, hfiles, hnone, hrun, hlooks hnone⟩
  | ok n =>
    obtain ⟨place, -, hat⟩ := disk.node_eq_ok.mp hnode
    have hheight : n.height ≤ reach := by
      have := Node.height_at? hat
      omega
    rw [hnode] at hfiles hrun
    have hlocates := Disk.locates_logsFrom hnode (Node.namesAre_at? hproper hat) hheight
    exact ⟨_, _, _, hfiles, hlocates, hrun, hlooks hlocates⟩

/-! ### A root behind a link -/

namespace LinkedRoot

def name (s : String) : Name :=
  Utf8.encode s.toList

/-- Behind the root's link there are a directory that has the name of a log, a link to a log and
one to a directory. The spelling of the paths would put the directories in another order. -/
def disk : Disk where
  root := .dir [(name "root", .link (.ofString "real")),
    (name "real", .dir [(name "a.b", .dir [(name "stdout_1.log", .file 0 [] .normal)]),
      (name "stdout_5.log", .link (.ofString "a/stdout_2.log")),
      (name "a", .dir [(name "stdout_2.log", .file 1 [] .normal)]),
      (name "stderr_3.log", .dir [(name "STDOUT_4.LOG", .file 2 [] .normal)]),
      (name "again", .link (.ofString "a"))])]
  cwd := []

end LinkedRoot

open LinkedRoot in
theorem logFiles_locates_linkedRoot : disk.root.isProper ∧ disk.root.height ≤ 3 ∧
    (∃ places files looks, (logFiles 3 (.ofString "root")).run disk = (disk, files) ∧
      disk.Locates (.ofString "root") places files ∧
      (looksLikeRun 3 (.ofString "root")).run disk = (disk, looks) ∧
        (looks ↔ ∃ place node, disk.LogBelow (.ofString "root") place node)) ∧
    ((logFiles 3 (.ofString "root")).run disk).2.map LogFile.node = [2, 1, 4, 5] := by
  have hproper : disk.root.isProper := by decide +kernel
  have hreach : disk.root.height ≤ 3 := by decide +kernel
  exact ⟨hproper, hreach, logFiles_locates hproper hreach _, by decide +kernel⟩

end NodeLogs
