import NodeLogs.Proofs.Tree.Steps
import NodeLogs.Tree.Work

/-! What calls do to a tree. No call removes a node or turns it into one of another
kind: directories stay, and files stay the files they are, whatever is written to
them. Apart from the entries of directories, a call changes nothing but what stands
at the places it touches. This holds of every tree, links and devices included. -/

namespace NodeLogs

namespace Node

/-- What a node keeps as long as it has its place. -/
def kind : Node → Node
  | dir _ => dir []
  | file born _ access => file born [] access
  | n => n

theorem kind_eq_dir {n : Node} : n.kind = dir [] ↔ ∃ es, n = dir es := by
  cases n <;> simp [kind]

theorem kind_eq_file {n : Node} {born : Nat} {access : Access} :
    n.kind = file born [] access ↔ ∃ bytes, n = file born bytes access := by
  cases n <;> simp [kind]

theorem kind_eq_link {n : Node} {target : Path} : n.kind = link target ↔ n = link target := by
  cases n <;> simp [kind]

theorem kind_eq_device {n : Node} {d : Device} : n.kind = device d ↔ n = device d := by
  cases n <;> simp [kind]

theorem ne_dir_of_kind {m n : Node} (hkind : m.kind = n.kind) (h : ∀ es, n ≠ dir es)
    (es : List (Name × Node)) : m ≠ dir es := by
  rintro rfl
  obtain ⟨es', rfl⟩ := kind_eq_dir.mp hkind.symm
  exact h es' rfl

theorem ne_link_of_kind {m n : Node} (hkind : m.kind = n.kind) (h : ∀ target, n ≠ link target)
    (target : Path) : m ≠ link target := by
  rintro rfl
  exact h target (kind_eq_link.mp hkind.symm)

/-- A regular file stands at the place. -/
def HasFile (n : Node) (place : Place) : Prop :=
  ∃ born bytes access, n.at? place = some (file born bytes access)

instance (n : Node) (place : Place) : Decidable (n.HasFile place) :=
  decidable_of_iff ((n.at? place).any isFile) <| by
    unfold HasFile
    cases h : n.at? place with
    | none => simp
    | some m => cases m <;> simp [isFile]

/-- The bytes of a regular file. -/
def bytes? : Node → Option Bytes
  | file _ bytes _ => some bytes
  | _ => none

/-- A spot that a look-up may come to: what it says is there is there. -/
def Names (root : Node) (followLast : Bool) : Spot → Prop
  | .found place => ∃ n, root.at? place = some n ∧ (followLast = true → ∀ target, n ≠ link target)
  | .free place name => root.HasDir place ∧ root.at? (place ++ [name]) = none

theorem StepsTo.names {root : Node} {followLast : Bool}
    {follow : Place → List Name → Except OsError Spot}
    (hfollow : ∀ here steps s, root.HasDir here → follow here steps = .ok s → root.Names followLast s)
    {here : Place} {steps : List Name} {s : Spot} (hhere : root.HasDir here) (hroot : root.HasDir [])
    (h : root.StepsTo followLast follow here steps s) : root.Names followLast s := by
  induction h with
  | here =>
    obtain ⟨es, hes⟩ := hhere
    exact ⟨_, hes, fun _ _ ht => by cases ht⟩
  | dot _ ih => exact ih hhere
  | dots _ ih => exact ih hhere.dropLast
  | free _ hnone => exact ⟨hhere, hnone⟩
  | dir _ hdir _ ih => exact ih ⟨_, hdir⟩
  | link _ _ _ hgoes =>
    refine hfollow _ _ _ ?_ hgoes
    split
    · exact hroot
    · exact hhere
  | last _ hn _ hlink => exact ⟨_, hn, hlink⟩

theorem walkLinks_names {root : Node} {followLast : Bool} (links : Nat) {here : Place}
    {steps : List Name} {s : Spot} (hhere : root.HasDir here) (hroot : root.HasDir [])
    (h : root.walkLinks followLast links here steps = .ok s) : root.Names followLast s := by
  induction links generalizing here steps s with
  | zero => exact (StepsTo.of_walkSteps h).names (by simp) hhere hroot
  | succ links ih => exact (StepsTo.of_walkSteps h).names (fun _ _ _ hdir => ih hdir) hhere hroot

theorem locate_names {root : Node} {cwd : Place} {followLast : Bool} {p : Path} {s : Spot}
    (hcwd : root.HasDir cwd) (h : root.locate cwd followLast p = .ok s) :
    root.Names followLast s := by
  have hroot : root.HasDir [] := HasDir.left (p := []) hcwd
  unfold locate at h
  split at h
  · cases h
  split at h
  · cases h
  refine walkLinks_names linkLimit ?_ hroot h
  split
  · exact hroot
  · exact hcwd

end Node

namespace Disk

/-- The working directory is a directory, and so is the top. -/
def HasCwd (disk : Disk) : Prop :=
  disk.root.HasDir disk.cwd

instance (disk : Disk) : Decidable disk.HasCwd :=
  inferInstanceAs (Decidable (disk.root.HasDir disk.cwd))

theorem HasCwd.top {disk : Disk} (h : disk.HasCwd) : disk.root.HasDir [] :=
  Node.HasDir.left (p := []) h

/-- The bytes of the regular file at a place. -/
def bytesAt? (disk : Disk) (place : Place) : Option Bytes :=
  (disk.root.at? place).bind Node.bytes?

theorem bytesAt?_eq_some {disk : Disk} {place : Place} {bytes : Bytes} :
    disk.bytesAt? place = some bytes ↔
      ∃ born access, disk.root.at? place = some (.file born bytes access) := by
  unfold bytesAt?
  cases disk.root.at? place with
  | none => simp
  | some n => cases n <;> simp [Node.bytes?]

/-- From one disk to a later one nothing is lost, and only what stands at places of
a kind may be new or hold other bytes. -/
structure Updates (S : Place → Prop) (disk later : Disk) : Prop where
  cwd : later.cwd = disk.cwd
  removals : later.removals = disk.removals
  kinds : ∀ place n, disk.root.at? place = some n →
    ∃ m, later.root.at? place = some m ∧ m.kind = n.kind
  others : ∀ place, ¬ S place → ¬ disk.root.HasDir place →
    later.root.at? place = disk.root.at? place

/-- At places of a kind, there are the same files with the same bytes. -/
def SameFiles (P : Place → Prop) (disk later : Disk) : Prop :=
  ∀ place, P place → ∀ born bytes access,
    later.root.at? place = some (.file born bytes access) ↔
      disk.root.at? place = some (.file born bytes access)

theorem SameFiles.refl (P : Place → Prop) (disk : Disk) : SameFiles P disk disk :=
  fun _ _ _ _ _ => .rfl

theorem SameFiles.trans {P : Place → Prop} {disk later last : Disk} (h : SameFiles P disk later)
    (h' : SameFiles P later last) : SameFiles P disk last :=
  fun place hplace born bytes access =>
    (h' place hplace born bytes access).trans (h place hplace born bytes access)

theorem SameFiles.bytesAt? {P : Place → Prop} {disk later : Disk} (h : SameFiles P disk later)
    {place : Place} (hplace : P place) : later.bytesAt? place = disk.bytesAt? place :=
  Option.ext fun bytes => by simp only [bytesAt?_eq_some, h place hplace]

namespace Updates

variable {S T : Place → Prop} {disk later last : Disk}

theorem refl (S : Place → Prop) (disk : Disk) : Updates S disk disk :=
  ⟨rfl, rfl, fun _ n h => ⟨n, h, rfl⟩, fun _ _ _ => rfl⟩

theorem mono (h : Updates S disk later) (hST : ∀ place, S place → T place) :
    Updates T disk later :=
  { h with others := fun place hT => h.others place fun hS => hT (hST place hS) }

theorem hasDir (h : Updates S disk later) {place : Place} (hdir : disk.root.HasDir place) :
    later.root.HasDir place := by
  obtain ⟨es, hes⟩ := hdir
  obtain ⟨m, hm, hkind⟩ := h.kinds place _ hes
  obtain ⟨es', rfl⟩ := Node.kind_eq_dir.mp hkind
  exact ⟨es', hm⟩

/-- A directory at a place that is not among those was there before. -/
theorem hasDir_of (h : Updates S disk later) {place : Place} (hS : ¬ S place)
    (hdir : later.root.HasDir place) : disk.root.HasDir place := by
  by_cases hd : disk.root.HasDir place
  · exact hd
  · obtain ⟨es, hes⟩ := hdir
    exact ⟨es, (h.others place hS hd) ▸ hes⟩

theorem trans (h : Updates S disk later) (h' : Updates S later last) : Updates S disk last where
  cwd := h'.cwd.trans h.cwd
  removals := h'.removals.trans h.removals
  kinds place n hn := by
    obtain ⟨m, hm, hkind⟩ := h.kinds place n hn
    obtain ⟨k, hk, hkind'⟩ := h'.kinds place m hm
    exact ⟨k, hk, hkind'.trans hkind⟩
  others place hS hdir := by
    rw [h'.others place hS fun hd => hdir (h.hasDir_of hS hd), h.others place hS hdir]

theorem hasCwd (h : Updates S disk later) (hcwd : disk.HasCwd) : later.HasCwd := by
  unfold HasCwd
  rw [h.cwd]
  exact h.hasDir hcwd

/-- A file keeps its bytes if its place is not among those. -/
theorem file (h : Updates S disk later) {place : Place} {born : Nat} {bytes : Bytes}
    {access : Access} (hS : ¬ S place) (hfile : disk.root.at? place = some (.file born bytes access)) :
    later.root.at? place = some (.file born bytes access) := by
  rw [h.others place hS, hfile]
  rintro ⟨es, hes⟩
  rw [hfile] at hes
  cases hes

theorem bytesAt? (h : Updates S disk later) {place : Place} (hS : ¬ S place) :
    later.bytesAt? place = disk.bytesAt? place := by
  unfold Disk.bytesAt?
  by_cases hdir : disk.root.HasDir place
  · obtain ⟨es', hes'⟩ := h.hasDir hdir
    obtain ⟨es, hes⟩ := hdir
    rw [hes, hes']
    rfl
  · rw [h.others place hS hdir]

theorem sameFiles {P : Place → Prop} (h : Updates S disk later)
    (hP : ∀ place, P place → ¬ S place) : SameFiles P disk later := by
  intro place hplace born bytes access
  by_cases hdir : disk.root.HasDir place
  · obtain ⟨es', hes'⟩ := h.hasDir hdir
    obtain ⟨es, hes⟩ := hdir
    rw [hes, hes']
    simp
  · rw [h.others place (hP place hplace) hdir]

/-- Putting a node where none was, or over one of its kind that is no directory, is an update. -/
theorem put {disk : Disk} {dir : Place} {name : Name} {v : Node} (faults : Faults)
    (hdir : disk.root.HasDir dir) (hv : ∀ x q, v.at? (x :: q) = none)
    (hold : ∀ n, disk.root.at? (dir ++ [name]) = some n → v.kind = n.kind ∧ ∀ es, n ≠ .dir es) :
    Updates (· = dir ++ [name]) disk
      { disk with root := disk.root.put (dir ++ [name]) v, faults } := by
  have hbelow (x : Name) (q : Place) : disk.root.at? (dir ++ [name] ++ x :: q) = none := by
    rw [Node.at?_append]
    cases hn : disk.root.at? (dir ++ [name]) with
    | none => rfl
    | some n => exact Node.at?_cons_eq_none (hold n hn).2 x q
  have hsame {place : Place} (hne : place ≠ dir ++ [name]) (hnot : ¬ disk.root.HasDir place) :
      (disk.root.put (dir ++ [name]) v).at? place = disk.root.at? place := by
    by_cases h : dir ++ [name] <+: place
    · obtain ⟨q, rfl⟩ := h
      obtain ⟨x, q, rfl⟩ := List.exists_cons_of_ne_nil (l := q) (by rintro rfl; simp at hne)
      rw [hbelow, List.append_assoc, List.singleton_append, Node.at?_put_self hdir, hv]
    · refine Node.at?_put_other _ v h fun h' => ?_
      rcases List.prefix_concat_iff.mp h' with rfl | ⟨q, rfl⟩
      · exact hne rfl
      · exact hnot hdir.left
  refine ⟨rfl, rfl, fun place n hn => ?_, fun place hne hnot => hsame hne hnot⟩
  by_cases hplace : place = dir ++ [name]
  · subst hplace
    exact ⟨v, by simpa using Node.at?_put_self hdir name v [], (hold n hn).1⟩
  by_cases hd : disk.root.HasDir place
  · obtain ⟨es, hes⟩ := hd
    rw [hn] at hes
    cases hes
    by_cases habove : place <+: dir ++ [name]
    · obtain ⟨q, hq⟩ := habove
      have hq' : q ≠ [] := by rintro rfl; exact hplace (by simpa using hq)
      obtain ⟨es', hes'⟩ := Node.put_dir es q v
      refine ⟨.dir es', ?_, rfl⟩
      rw [← hq, Node.at?_put_above _ v hq', hn, Option.map_some, hes']
    · refine ⟨.dir es, ?_, rfl⟩
      rw [← hn]
      refine Node.at?_put_other _ v (fun ⟨q, hq⟩ => ?_) habove
      obtain ⟨x, q, rfl⟩ := List.exists_cons_of_ne_nil (l := q) (by rintro rfl; simp_all)
      rw [← hq, hbelow] at hn
      cases hn
  · exact ⟨n, (hsame hplace hd).trans hn, rfl⟩

/-- Giving a file other bytes is an update. -/
theorem overwrite {disk : Disk} {place : Place} {born : Nat} {old : Bytes} {access : Access}
    (new : Bytes) (faults : Faults) (hcwd : disk.HasCwd)
    (h : disk.root.at? place = some (.file born old access)) :
    Updates (· = place) disk
      { disk with root := disk.root.put place (.file born new access), faults } := by
  have hplace : place ≠ [] := by
    rintro rfl
    obtain ⟨es, hes⟩ := hcwd.top
    rw [h] at hes
    cases hes
  rw [← List.dropLast_concat_getLast hplace] at h ⊢
  refine put faults (.of_append (by simp) h) (Node.at?_cons_eq_none (by simp)) fun n hn => ?_
  rw [h] at hn
  cases hn
  exact ⟨rfl, by simp⟩

end Updates

/-! ### What each call does -/

/-- A file is opened for writing where none is, where one is, or on a device. -/
theorem create_cases (disk : Disk) (p : Path) :
    (∃ e, disk.create p = (disk, .error e)) ∨
    (∃ place name, disk.locate true p = .ok (.free place name) ∧
      disk.create p = ({ disk with
          root := disk.root.put (place ++ [name]) (.file disk.removals [] .normal) },
        .ok ⟨place ++ [name], disk.removals, 0⟩)) ∨
    (∃ place born bytes access, disk.locate true p = .ok (.found place) ∧
      disk.root.at? place = some (.file born bytes access) ∧
      disk.create p = ({ disk with root := disk.root.put place (.file born [] access) },
        .ok ⟨place, born, 0⟩)) ∨
    (∃ place, disk.locate true p = .ok (.found place) ∧
      (∀ born bytes access, disk.root.at? place ≠ some (.file born bytes access)) ∧
      disk.create p = (disk, .ok ⟨place, 0, 0⟩)) := by
  unfold create
  split
  · left
    split
    · exact ⟨_, rfl⟩
    · exact ⟨_, rfl⟩
  cases h : disk.locate true p with
  | error e => exact .inl ⟨e, rfl⟩
  | ok s =>
    cases s with
    | free place name => exact .inr (.inl ⟨place, name, rfl, rfl⟩)
    | found place =>
      cases hn : disk.root.at? place with
      | none => exact .inr (.inr (.inr ⟨place, rfl, by simp [hn], by simp [hn]⟩))
      | some n =>
        cases n with
        | dir es => exact .inl ⟨.isADirectory, by simp [hn]⟩
        | file born bytes access =>
          exact .inr (.inr (.inl ⟨place, born, bytes, access, rfl, hn, by simp [hn]⟩))
        | link target => exact .inr (.inr (.inr ⟨place, rfl, by simp [hn], by simp [hn]⟩))
        | device kind => exact .inr (.inr (.inr ⟨place, rfl, by simp [hn], by simp [hn]⟩))

/-- A regular file that was just opened for writing is empty. -/
theorem create_file {disk : Disk} (hcwd : disk.HasCwd) {p : Path} {h : Handle}
    (hok : (disk.create p).2 = .ok h) (hfile : (disk.create p).1.root.HasFile h.place) :
    h.offset = 0 ∧
      ∃ access, (disk.create p).1.root.at? h.place = some (.file h.born [] access) := by
  rcases disk.create_cases p with ⟨e, hc⟩ | ⟨place, name, hloc, hc⟩ |
    ⟨place, born, bytes, access, -, hold, hc⟩ | ⟨place, -, hnot, hc⟩
  all_goals rw [hc] at hok hfile ⊢; cases hok
  · obtain ⟨hdir, -⟩ := Node.locate_names hcwd hloc
    exact ⟨rfl, .normal, Node.at?_put_self hdir name _ []⟩
  · exact ⟨rfl, access, Node.at?_put_over hcwd.top hold (by simp) _⟩
  · obtain ⟨born, bytes, access, hat⟩ := hfile
    exact absurd hat (hnot _ _ _)

/-- A write changes nothing, or puts some first bytes into the handle's file and
says how many. -/
theorem write_cases (disk : Disk) (h : Handle) (bs : Bytes) :
    ((disk.write h bs).1 = disk ∧
      ∀ old access, disk.root.at? h.place ≠ some (.file h.born old access)) ∨
    ∃ old access taken writes, disk.root.at? h.place = some (.file h.born old access) ∧
      taken ≤ bs.length ∧
      disk.write h bs = ({ disk with
          root := disk.root.put h.place (.file h.born (splice old h.offset (bs.take taken)) access)
          faults := { disk.faults with writes } },
        ⟨{ h with offset := h.offset + taken }, taken,
          if taken < bs.length then some .noSpace else none⟩) := by
  unfold write
  split
  next hdev => exact .inl ⟨rfl, by simp [hdev]⟩
  next born old access hfile =>
    split
    next hborn =>
      subst hborn
      right
      cases htake : takeFor? h.place disk.faults.writes with
      | none =>
        exact ⟨old, access, bs.length, disk.faults.writes, hfile, Nat.le_refl _, rfl⟩
      | some item =>
        obtain ⟨limit, writes⟩ := item
        cases limit with
        | none =>
          exact ⟨old, access, bs.length, writes, hfile, Nat.le_refl _, rfl⟩
        | some most =>
          exact ⟨old, access, _, writes, hfile, Nat.min_le_right most _, rfl⟩
    next hborn =>
      refine .inl ⟨rfl, fun old' access' h' => hborn ?_⟩
      rw [hfile] at h'
      cases h'
      rfl
  next hdev hfile => exact .inl ⟨rfl, fun old access h' => hfile _ _ _ h'⟩

/-- A read leaves the tree alone. -/
theorem read_disk (disk : Disk) (h : Handle) (limit : Nat) :
    ∃ reads, (disk.read h limit).1 = { disk with faults := { disk.faults with reads } } := by
  unfold read
  split
  · split
    · split
      · exact ⟨disk.faults.reads, rfl⟩
      · cases takeFor? h.place disk.faults.reads with
        | none => exact ⟨disk.faults.reads, rfl⟩
        | some item => exact ⟨item.2, rfl⟩
    · exact ⟨disk.faults.reads, rfl⟩
  all_goals exact ⟨disk.faults.reads, rfl⟩

theorem read_place {disk : Disk} {h h' : Handle} {limit : Nat} {bs : Bytes}
    (hr : (disk.read h limit).2 = .ok (bs, h')) : h'.place = h.place := by
  unfold read at hr
  split at hr
  · split at hr
    · split at hr
      · split at hr <;> cases hr
        rfl
      · cases hr
        rfl
    · cases hr
      rfl
  all_goals cases hr
  all_goals rfl

/-- A file is opened for reading where its path leads. -/
theorem openRead_place {disk : Disk} {p : Path} {h : Handle} {size : Nat}
    (hok : disk.openRead p = .ok (h, size)) : disk.locate true p = .ok (.found h.place) := by
  unfold openRead at hok
  cases hloc : disk.locate true p with
  | error e =>
    rw [hloc] at hok
    cases hok
  | ok spot =>
    rw [hloc] at hok
    cases spot with
    | free => cases hok
    | found place =>
      dsimp only at hok
      split at hok <;> cases hok <;> rfl

/-- What a call can do to a tree: nothing, or a directory or a file is made where a name is free,
or a file gets other bytes. -/
inductive Alters (disk : Disk) : Node → Prop where
  | not : Alters disk disk.root
  | make {followLast p place name v} (hfree : disk.locate followLast p = .ok (.free place name))
    (hv : v = .dir [] ∨ v = .file disk.removals [] .normal) :
    Alters disk (disk.root.put (place ++ [name]) v)
  | overwrite {place born old access} (new : Bytes)
    (hold : disk.root.at? place = some (.file born old access)) :
    Alters disk (disk.root.put place (.file born new access))

theorem answer_alters (disk : Disk) (c : Call) : disk.Alters (disk.answer c).1.root := by
  cases c with
  | isDir | isFile | list | openRead => exact .not
  | read h limit =>
    obtain ⟨reads, hr⟩ := disk.read_disk h limit
    show disk.Alters (disk.read h limit).1.root
    rw [hr]
    exact .not
  | makeDir p =>
    show disk.Alters (disk.makeDir p).1.root
    unfold makeDir
    split
    · exact .not
    · exact .not
    next hfree => exact .make hfree (.inl rfl)
  | create p =>
    show disk.Alters (disk.create p).1.root
    rcases disk.create_cases p with ⟨e, hc⟩ | ⟨place, name, hfree, hc⟩ |
      ⟨place, born, bytes, access, -, hold, hc⟩ | ⟨place, -, -, hc⟩
    all_goals rw [hc]
    · exact .not
    · exact .make hfree (.inr rfl)
    · exact .overwrite [] hold
    · exact .not
  | write h bs =>
    show disk.Alters (disk.write h bs).1.root
    rcases disk.write_cases h bs with ⟨hw, -⟩ | ⟨old, access, taken, writes, hold, -, hw⟩
    all_goals rw [hw]
    · exact .not
    · exact .overwrite _ hold

/-! ### The places that calls touch -/

/-- The places at which a call makes or changes something. -/
def touched (disk : Disk) : Call → List Place
  | .makeDir p =>
    match disk.locate false (withoutSlashes p) with
    | .ok (.free place name) => [place ++ [name]]
    | _ => []
  | .create p =>
    match (disk.create p).2 with
    | .ok h => [h.place]
    | .error _ => []
  | .write h _ => [h.place]
  | _ => []

theorem makeDir_updates {disk : Disk} (hcwd : disk.HasCwd) (p : Path) :
    Updates (· ∈ disk.touched (.makeDir p)) disk (disk.makeDir p).1 := by
  unfold makeDir
  simp only [touched]
  cases h : disk.locate false (withoutSlashes p) with
  | error e => exact .refl _ _
  | ok s =>
    cases s with
    | found place => exact .refl _ _
    | free place name =>
      obtain ⟨hdir, hnone⟩ := Node.locate_names hcwd h
      refine (Updates.put disk.faults hdir (fun x q => ?_) fun n hn => ?_).mono (by simp)
      · simp [Node.at?_cons, Node.child?, Node.entries]
      · rw [hnone] at hn
        cases hn

theorem create_updates {disk : Disk} (hcwd : disk.HasCwd) (p : Path) :
    Updates (· ∈ disk.touched (.create p)) disk (disk.create p).1 := by
  simp only [touched]
  rcases disk.create_cases p with ⟨e, h⟩ | ⟨place, name, hloc, h⟩ |
    ⟨place, born, bytes, access, hloc, hfile, h⟩ | ⟨place, hloc, hnot, h⟩
  · rw [h]
    exact .refl _ _
  · obtain ⟨hdir, hnone⟩ := Node.locate_names hcwd hloc
    rw [h]
    refine (Updates.put disk.faults hdir (Node.at?_cons_eq_none (by simp)) fun n hn => ?_).mono
      (by simp)
    rw [hnone] at hn
    cases hn
  · rw [h]
    exact (Updates.overwrite [] disk.faults hcwd hfile).mono (by simp)
  · rw [h]
    exact .refl _ _

theorem write_updates {disk : Disk} (hcwd : disk.HasCwd) (h : Handle) (bs : Bytes) :
    Updates (· = h.place) disk (disk.write h bs).1 := by
  rcases disk.write_cases h bs with ⟨hw, -⟩ | ⟨old, access, taken, writes, hfile, -, hw⟩
  · rw [hw]
    exact .refl _ _
  · rw [hw]
    exact .overwrite _ _ hcwd hfile

theorem answer_updates {disk : Disk} (hcwd : disk.HasCwd) (c : Call) :
    Updates (· ∈ disk.touched c) disk (disk.answer c).1 := by
  cases c with
  | isDir p => exact .refl _ _
  | isFile p => exact .refl _ _
  | list p => exact .refl _ _
  | openRead p => exact .refl _ _
  | makeDir p => exact makeDir_updates hcwd p
  | create p => exact create_updates hcwd p
  | write h bs => exact (write_updates hcwd h bs).mono (by simp [touched])
  | read h limit =>
    obtain ⟨reads, hr⟩ := disk.read_disk h limit
    show Updates _ disk (disk.read h limit).1
    rw [hr]
    exact ⟨rfl, rfl, fun _ n hn => ⟨n, hn, rfl⟩, fun _ _ _ => rfl⟩

end Disk

end NodeLogs
