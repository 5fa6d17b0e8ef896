import Mathlib.Data.List.Sort
import NodeLogs.Discovery.Walk
import NodeLogs.Proofs.Tree.Plain

/-! The files below a node in the order of the walk. The order is that of their places,
name by name, so that which files there are says all. -/

namespace NodeLogs

/-! ### Sorting by name -/

theorem insertBy_map {α β : Type} (f : α → β) (before : β → β → Bool) (x : α) (ys : List α) :
    insertBy before (f x) (ys.map f) = (insertBy (fun a b => before (f a) (f b)) x ys).map f := by
  induction ys with
  | nil => rfl
  | cons y ys ih =>
    rw [List.map_cons, insertBy, insertBy, ih]
    split <;> rfl

theorem sortBy_map {α β : Type} (f : α → β) (before : β → β → Bool) (xs : List α) :
    sortBy before (xs.map f) = (sortBy (fun a b => before (f a) (f b)) xs).map f := by
  induction xs with
  | nil => rfl
  | cons x xs ih => rw [List.map_cons, sortBy_cons, ih, insertBy_map, sortBy_cons]

/-- Entries by their names. -/
def byName {ν : Type} (es : List (Name × ν)) : List (Name × ν) :=
  sortBy (fun a b => decide (a.1 < b.1)) es

theorem mem_byName {ν : Type} {es : List (Name × ν)} {e : Name × ν} : e ∈ byName es ↔ e ∈ es :=
  (perm_sortBy _ es).mem_iff

/-- Names that are all different come in strictly ascending order. -/
theorem byName_pairwise {ν : Type} {es : List (Name × ν)} (h : (es.map Prod.fst).Nodup) :
    (byName es).Pairwise fun a b => a.1 < b.1 := by
  have hsorted : SortedBy (fun a b => decide (a.1 < b.1)) (byName es) := by
    refine sortedBy_sortBy es (fun a b hab => ?_) fun a b c hab hbc => ?_
    · simpa using List.lt_asymm (by simpa using hab)
    · simp only [decide_eq_false_iff_not, List.not_lt] at hab hbc ⊢
      exact List.le_trans hab hbc
  have hnodup : ((byName es).map Prod.fst).Nodup :=
    ((perm_sortBy _ es).map Prod.fst).nodup_iff.mpr h
  refine List.Pairwise.imp₂ (fun a b hle hne => ?_) hsorted (List.pairwise_map.mp hnodup)
  have hle : a.1 ≤ b.1 := by simpa using hle
  exact Classical.byContradiction fun hlt => hne (List.le_antisymm hle hlt)

/-- In which order entries are given does not matter if their names are all different. -/
theorem byName_eq {ν : Type} {es sorted : List (Name × ν)} (hperm : sorted.Perm es)
    (hsorted : sorted.Pairwise fun a b => a.1 < b.1) : byName es = sorted := by
  have hnodup : (es.map Prod.fst).Nodup := by
    refine (hperm.map Prod.fst).nodup_iff.mp (List.pairwise_map.mpr (hsorted.imp ?_))
    rintro ⟨name, _⟩ ⟨_, _⟩ hlt rfl
    exact List.lt_irrefl name hlt
  exact List.Perm.eq_of_pairwise (fun _ _ _ _ hab hba => absurd hba (List.lt_asymm hab))
    (byName_pairwise hnodup) hsorted ((perm_sortBy _ es).trans hperm.symm)

theorem byName_perm {ν : Type} {es es' : List (Name × ν)} (hperm : es'.Perm es)
    (hnodup : (es.map Prod.fst).Nodup) : byName es' = byName es :=
  byName_eq ((perm_sortBy _ es).trans hperm.symm) (byName_pairwise hnodup)

namespace Node

/-! ### The files of a tree -/

/-- The places of the regular files that lie in at most so many directories, as a walk
gets to them. -/
def filesBelow : Nat → Node → List Place
  | _, file .. => [[]]
  | depth + 1, dir es =>
    (byName es).flatMap fun (name, n) => (filesBelow depth n).map (name :: ·)
  | _, _ => []

theorem mem_filesBelow {depth : Nat} {n : Node} (hplain : n.isPlain) {place : Place} :
    place ∈ n.filesBelow depth ↔ place.length ≤ depth ∧ n.HasFile place := by
  induction depth generalizing n place with
  | zero =>
    cases n <;> cases place <;> simp [filesBelow, HasFile, at?_cons, child?, entries]
  | succ depth ih =>
    cases n with
    | dir es =>
      obtain ⟨hnodup, hes⟩ := isPlain_dir.mp hplain
      simp only [filesBelow, List.mem_flatMap, List.mem_map, mem_byName]
      constructor
      · rintro ⟨⟨name, c⟩, hmem, q, hq, rfl⟩
        obtain ⟨hlength, born, bytes, access, hat⟩ := (ih (hes _ hmem).2).mp hq
        refine ⟨by simpa using hlength, born, bytes, access, ?_⟩
        rw [at?_cons]
        simp [child?, entries, Keyed.lookup_of_mem hnodup hmem, hat]
      · rintro ⟨hlength, born, bytes, access, hat⟩
        cases place with
        | nil => cases hat
        | cons name q =>
          rw [at?_cons] at hat
          obtain ⟨c, hc, hat⟩ := Option.bind_eq_some_iff.mp hat
          have hmem := Keyed.mem_of_lookup hc
          exact ⟨(name, c), hmem, q, (ih (hes _ hmem).2).mpr
            ⟨by simpa using hlength, born, bytes, access, hat⟩, rfl⟩
    | file | link | device =>
      cases place <;> simp [filesBelow, HasFile, at?_cons, child?, entries]

/-- The places come in strictly ascending order. -/
theorem filesBelow_pairwise (depth : Nat) {n : Node} (hplain : n.isPlain) :
    (n.filesBelow depth).Pairwise (· < ·) := by
  induction depth generalizing n with
  | zero => cases n <;> simp [filesBelow]
  | succ depth ih =>
    cases n with
    | dir es =>
      obtain ⟨hnodup, hes⟩ := isPlain_dir.mp hplain
      refine List.pairwise_flatMap.mpr ⟨fun ⟨name, c⟩ hmem => ?_,
        (byName_pairwise hnodup).imp fun {a b} hab p hp q hq => ?_⟩
      · refine List.pairwise_map.mpr ((ih (hes _ (mem_byName.mp hmem)).2).imp fun h => ?_)
        exact List.cons_lt_cons_self.mpr h
      · obtain ⟨p, -, rfl⟩ := List.mem_map.mp hp
        obtain ⟨q, -, rfl⟩ := List.mem_map.mp hq
        exact List.cons_lt_cons_iff.mpr (.inl hab)
    | file | link | device => simp [filesBelow]

/-- Trees with the same files of a kind have them in the same order. -/
theorem filter_filesBelow {m n : Node} (hm : m.isPlain) (hn : n.isPlain) {P : Place → Bool}
    (hsame : ∀ place, P place → (m.HasFile place ↔ n.HasFile place)) (depth : Nat) :
    (m.filesBelow depth).filter P = (n.filesBelow depth).filter P := by
  refine ((filesBelow_pairwise depth hm).filter P).eq_of_mem_iff
    ((filesBelow_pairwise depth hn).filter P) fun place => ?_
  simp only [List.mem_filter, mem_filesBelow hm, mem_filesBelow hn]
  constructor
  · rintro ⟨⟨hlength, hfile⟩, hP⟩
    exact ⟨⟨hlength, (hsame place hP).mp hfile⟩, hP⟩
  · rintro ⟨⟨hlength, hfile⟩, hP⟩
    exact ⟨⟨hlength, (hsame place hP).mpr hfile⟩, hP⟩

end Node

/-! ### The logs of a tree -/

/-- A file at the place has the name of a log. -/
def isLogPlace (place : Place) : Bool :=
  (place.getLast?.bind NodeLog.nodeOfName?).isSome

theorem isLogPlace_append (above : Place) {below : Place} (hne : below ≠ []) :
    isLogPlace (above ++ below) = isLogPlace below := by
  rw [isLogPlace, isLogPlace, List.getLast?_append_of_ne_nil _ hne]

/-- The log that a path names. -/
def LogFile.ofPath? (p : Path) : Option LogFile :=
  (NodeLog.nodeOfName? (p.fileName?.getD p.bytes)).map (⟨p, ·⟩)

/-- The path of what lies below another. -/
def Path.below (p : Path) (place : Place) : Path :=
  place.foldl Path.child p

theorem LogFile.ofPath?_below {place : Place} (hne : place ≠ [])
    (hnames : ∀ name ∈ place, EntryName name) (p : Path) :
    LogFile.ofPath? (p.below place) =
      (place.getLast?.bind NodeLog.nodeOfName?).map (⟨p.below place, ·⟩) := by
  obtain ⟨above, name, rfl⟩ : ∃ above name, place = above ++ [name] :=
    ⟨_, _, (List.dropLast_concat_getLast hne).symm⟩
  have hfile : (p.below (above ++ [name])).fileName? = some name := by
    rw [Path.below, List.foldl_append]
    exact Path.fileName?_child (hnames name (by simp)).toStepName _
  rw [ofPath?, hfile, List.getLast?_concat]
  rfl

/-- The logs below a node that a path leads to. -/
def logsAt (depth : Nat) (p : Path) (n : Node) : List LogFile :=
  (n.filesBelow depth).filterMap fun place => LogFile.ofPath? (p.below place)

theorem logsAt_file (depth : Nat) (p : Path) (born : Nat) (bytes : Bytes) (access : Access) :
    logsAt depth p (.file born bytes access) = (LogFile.ofPath? p).toList := by
  unfold logsAt
  cases h : LogFile.ofPath? p <;> cases depth <;> simp [Node.filesBelow, Path.below, h]

theorem logsAt_dir (depth : Nat) (p : Path) (es : List (Name × Node)) :
    logsAt (depth + 1) p (.dir es) =
      (byName es).flatMap fun (name, n) => logsAt depth (p.child name) n := by
  simp [logsAt, Node.filesBelow, List.filterMap_flatMap, List.filterMap_map, Function.comp_def,
    Path.below]

theorem entryName_of_hasFile {n : Node} (hplain : n.isPlain) {place : Place}
    (h : n.HasFile place) : ∀ name ∈ place, EntryName name := by
  induction place generalizing n with
  | nil => simp
  | cons x place ih =>
    obtain ⟨born, bytes, access, hat⟩ := h
    rw [Node.at?_cons] at hat
    obtain ⟨c, hc, hat'⟩ := Option.bind_eq_some_iff.mp hat
    cases n with
    | dir es =>
      obtain ⟨hx, hplain'⟩ := (Node.isPlain_dir.mp hplain).2 _ (Keyed.mem_of_lookup hc)
      intro name hmem
      rcases List.mem_cons.mp hmem with rfl | hmem
      · exact hx
      · exact ih hplain' ⟨born, bytes, access, hat'⟩ name hmem
    | file | link | device => cases hc

theorem LogFile.ofPath?_path {p : Path} {file : LogFile} (h : ofPath? p = some file) :
    file.path = p := by
  obtain ⟨node, -, rfl⟩ := Option.map_eq_some_iff.mp h
  rfl

/-- Each log that the walk finds is a regular file with the name of a log. -/
theorem exists_of_mem_logsAt {depth : Nat} {p : Path} {n : Node} (hplain : n.isPlain)
    (hdir : n.isDir) {file : LogFile} (h : file ∈ logsAt depth p n) :
    ∃ below, file.path = p.below below ∧ LogFile.ofPath? file.path = some file ∧ n.HasFile below ∧
      below ≠ [] ∧ isLogPlace below := by
  obtain ⟨below, hmem, hof⟩ := List.mem_filterMap.mp h
  have hfile := ((Node.mem_filesBelow hplain).mp hmem).2
  have hpath := LogFile.ofPath?_path hof
  have hne : below ≠ [] := by
    rintro rfl
    obtain ⟨born, bytes, access, hat⟩ := hfile
    cases hat
    cases hdir
  refine ⟨below, hpath, hpath ▸ hof, hfile, hne, ?_⟩
  rw [LogFile.ofPath?_below hne (entryName_of_hasFile hplain hfile)] at hof
  obtain ⟨node, hnode, -⟩ := Option.map_eq_some_iff.mp hof
  simp [isLogPlace, hnode]

namespace Disk.LeadsTo

variable {disk : Disk} {p : Path} {place : Place}

/-- What lies below a directory is where its path leads. -/
theorem below (h : disk.LeadsTo p place) (hplain : disk.Plain) {below : Place}
    (hdir : disk.root.HasDir (place ++ below)) : disk.LeadsTo (p.below below) (place ++ below) := by
  induction below generalizing p place with
  | nil => rwa [List.append_nil]
  | cons name below ih =>
    rw [show place ++ name :: below = place ++ [name] ++ below by simp] at hdir ⊢
    obtain ⟨es, hes⟩ := hdir.left
    exact ih (h.child hplain (hplain.entryName_of_at? hes) ⟨es, hes⟩) hdir

theorem locate_below (h : disk.LeadsTo p place) (hplain : disk.Plain) {below : Place}
    (hne : below ≠ []) {n : Node} (hn : disk.root.at? (place ++ below) = some n)
    (followLast : Bool) :
    disk.locate followLast (p.below below) = .ok (.found (place ++ below)) := by
  obtain ⟨above, name, rfl⟩ : ∃ above name, below = above ++ [name] :=
    ⟨_, _, (List.dropLast_concat_getLast hne).symm⟩
  rw [← List.append_assoc] at hn ⊢
  have hdir := h.below hplain (.of_append (List.cons_ne_nil _ _) hn)
  rw [show p.below (above ++ [name]) = (p.below above).child name from List.foldl_append ..,
    hdir.locate_child hplain (hplain.entryName_of_at? hn), hn]
  rfl

end Disk.LeadsTo

/-- Where the same logs lie below two nodes, the walk finds the same there. -/
theorem logsAt_congr {m n : Node} (hm : m.isPlain) (hn : n.isPlain) (above : Place)
    (habove : ∀ name ∈ above, EntryName name) (hdirs : above = [] → m.isDir ∧ n.isDir)
    (hsame : ∀ place, isLogPlace (above ++ place) → (m.HasFile place ↔ n.HasFile place))
    (depth : Nat) (p : Path) : logsAt depth (p.below above) m = logsAt depth (p.below above) n := by
  have hfilter {k : Node} (hk : k.isPlain) (hdir : above = [] → k.isDir) :
      logsAt depth (p.below above) k =
        ((k.filesBelow depth).filter fun place => isLogPlace (above ++ place)).filterMap
          fun place => LogFile.ofPath? ((p.below above).below place) := by
    rw [logsAt, List.filterMap_filter]
    refine List.filterMap_congr fun place hplace => ?_
    have hfile := ((Node.mem_filesBelow hk).mp hplace).2
    have hne : above ++ place ≠ [] := by
      intro hnil
      obtain ⟨rfl, rfl⟩ := List.append_eq_nil_iff.mp hnil
      obtain ⟨born, bytes, access, hat⟩ := hfile
      cases hat
      cases hdir rfl
    have hof := LogFile.ofPath?_below hne
      (List.forall_mem_append.mpr ⟨habove, entryName_of_hasFile hk hfile⟩) p
    split
    · rfl
    next hlog =>
      rw [show (p.below above).below place = p.below (above ++ place) from
        (List.foldl_append ..).symm, hof]
      simpa [isLogPlace] using hlog
  rw [hfilter hm fun h => (hdirs h).1, hfilter hn fun h => (hdirs h).2,
    Node.filter_filesBelow hm hn hsame]

end NodeLogs
