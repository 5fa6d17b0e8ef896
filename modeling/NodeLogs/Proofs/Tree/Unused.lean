import NodeLogs.Proofs.Tree.Shape

/-! A file that is not used. What a path names depends on the shape of a tree, not on what its
files hold. So work that neither opens a file nor reads or writes it comes to the same whatever
the file holds. -/

namespace NodeLogs

/-- To look at the values after a change is to change what was to be looked at. -/
theorem Keyed.map_alter {κ ν μ : Type} [BEq κ] (g : ν → μ) {f : Option ν → Option ν}
    {f' : Option μ → Option μ} (hf : ∀ v, (f v).map g = f' (v.map g)) (key : κ)
    (pairs : List (κ × ν)) :
    (alter f key pairs).map (Prod.map id g) = alter f' key (pairs.map (Prod.map id g)) := by
  induction pairs with
  | nil =>
    have hnone : f' none = (f none).map g := (hf none).symm
    simp only [alter, List.map_nil, hnone]
    cases f none <;> rfl
  | cons p pairs ih =>
    obtain ⟨k, v⟩ := p
    have hsome : f' (some (g v)) = (f (some v)).map g := (hf (some v)).symm
    simp only [alter, List.map_cons, Prod.map_apply, id, hsome, ← ih]
    split
    · cases f (some v) <;> rfl
    · rfl

namespace Node

variable {root other : Node}

theorem shape_of_not_dir {n : Node} (h : ∀ es, n ≠ dir es) (es : List (Name × Node)) :
    n.shape ≠ dir es := by
  cases n with
  | dir es' => exact absurd rfl (h es')
  | file | link | device => unfold shape; simp

theorem isDir_shape (n : Node) : n.shape.isDir = n.isDir := by
  cases n <;> unfold shape <;> rfl

theorem isFile_shape (n : Node) : n.shape.isFile = n.isFile := by
  cases n <;> unfold shape <;> rfl

/-- The shape of a tree after a change is told by the shapes of the tree and of what is put. -/
theorem shape_put_eq (n v : Node) (place : Place) :
    (n.put place v).shape = n.shape.put place v.shape := by
  induction place generalizing n with
  | nil => rw [put_nil, put_nil]
  | cons name place ih =>
    cases n with
    | dir es =>
      by_cases hplace : place = []
      · subst hplace
        rw [put_singleton, shape_dir, shape_dir, put_singleton]
        exact congrArg dir (Keyed.map_alter (f := fun _ => some v) shape (fun _ => rfl) name es)
      · rw [put_cons es name hplace, shape_dir, shape_dir, put_cons _ name hplace]
        refine congrArg dir (Keyed.map_alter shape (fun c => ?_) name es)
        cases c with
        | none => rfl
        | some c => exact congrArg some (ih c)
    | file | link | device =>
      rw [put_of_not_dir (by simp), put_of_not_dir (shape_of_not_dir (by simp))]

section SameShape

variable (h : other.shape = root.shape)
include h

theorem at?_eq_none_of_shape {place : Place} (hnone : root.at? place = none) :
    other.at? place = none := by
  have hat := at?_shape other place
  rw [h, at?_shape, hnone] at hat
  exact Option.map_eq_none_iff.mp hat.symm

theorem HasDir.of_shape {place : Place} (hdir : root.HasDir place) : other.HasDir place := by
  obtain ⟨es, hes⟩ := hdir
  obtain ⟨n, hn, hshape⟩ := exists_of_shape h hes
  obtain ⟨es', rfl⟩ := kind_eq_dir.mp (kind_eq_of_shape hshape)
  exact ⟨es', hn⟩

theorem walkSteps_of_shape (followLast : Bool) (follow : Place → List Name → Except OsError Spot)
    (here : Place) (steps : List Name) :
    other.walkSteps followLast follow here steps = root.walkSteps followLast follow here steps := by
  induction steps generalizing here with
  | nil => rfl
  | cons step rest ih =>
    simp only [walkSteps, ih]
    cases hn : root.at? (here ++ [step]) with
    | none => rw [at?_eq_none_of_shape h hn]
    | some n =>
      obtain ⟨m, hm, hshape⟩ := exists_of_shape h hn
      have hkind := kind_eq_of_shape hshape
      rw [hm]
      cases n with
      | dir es =>
        obtain ⟨es', rfl⟩ := kind_eq_dir.mp hkind
        rfl
      | file born bytes access =>
        obtain ⟨bytes', rfl⟩ := kind_eq_file.mp hkind
        rfl
      | link target =>
        obtain rfl := kind_eq_link.mp hkind
        rfl
      | device kind =>
        obtain rfl := kind_eq_device.mp hkind
        rfl

theorem walkLinks_of_shape (followLast : Bool) (links : Nat) :
    other.walkLinks followLast links = root.walkLinks followLast links := by
  induction links with
  | zero => exact funext fun here => funext (walkSteps_of_shape h followLast _ here)
  | succ links ih =>
    funext here steps
    simp only [walkLinks, ih]
    exact walkSteps_of_shape h followLast _ here steps

theorem locate_of_shape (cwd : Place) (followLast : Bool) (p : Path) :
    other.locate cwd followLast p = root.locate cwd followLast p := by
  simp only [locate, walkLinks_of_shape h]

end SameShape

end Node

namespace Disk

/-- Two disks are alike but for what the file at a place holds. -/
structure AlikeBut (place : Place) (disk other : Disk) : Prop where
  shape : other.root.shape = disk.root.shape
  bytes : ∀ q, q ≠ place → other.bytesAt? q = disk.bytesAt? q
  cwd : other.cwd = disk.cwd
  removals : other.removals = disk.removals
  faults : other.faults = disk.faults

/-- Does a call have to do with the file at a place? -/
def Uses (disk : Disk) (place : Place) : Call → Prop
  | .create p | .openRead p => disk.locate true p = .ok (.found place)
  | .read h _ | .write h _ => h.place = place
  | .isDir _ | .isFile _ | .list _ | .makeDir _ => False

instance (disk : Disk) (place : Place) : (c : Call) → Decidable (disk.Uses place c)
  | .create p | .openRead p =>
    decidable_of_iff ((disk.locate true p).toOption = some (.found place))
      (show _ ↔ disk.locate true p = .ok (.found place) by
        cases disk.locate true p <;> simp [Except.toOption])
  | .read h _ | .write h _ => inferInstanceAs (Decidable (h.place = place))
  | .isDir _ | .isFile _ | .list _ | .makeDir _ => inferInstanceAs (Decidable False)

namespace AlikeBut

variable {place : Place} {disk other : Disk} (h : disk.AlikeBut place other)
include h

theorem locate_eq (followLast : Bool) (p : Path) :
    other.locate followLast p = disk.locate followLast p := by
  unfold locate
  rw [h.cwd, Node.locate_of_shape h.shape]

/-- What is no directory is the same elsewhere. -/
theorem at?_eq {q : Place} (hq : q ≠ place) (hdir : ¬ disk.root.HasDir q) :
    other.root.at? q = disk.root.at? q := by
  have hbytes := h.bytes q hq
  unfold bytesAt? at hbytes
  cases hn : disk.root.at? q with
  | none => exact Node.at?_eq_none_of_shape h.shape hn
  | some n =>
    obtain ⟨m, hm, hshape⟩ := Node.exists_of_shape h.shape hn
    have hkind := Node.kind_eq_of_shape hshape
    rw [hn, hm] at hbytes
    rw [hm]
    cases n with
    | dir es => exact absurd ⟨es, hn⟩ hdir
    | file born bytes access =>
      obtain ⟨bytes', rfl⟩ := Node.kind_eq_file.mp hkind
      cases hbytes
      rfl
    | link target => rw [Node.kind_eq_link.mp hkind]
    | device kind => rw [Node.kind_eq_device.mp hkind]

/-! ### Looks -/

/-- What a path leads to is of one shape. -/
theorem node_cases (p : Path) : (∃ e, other.node p = .error e ∧ disk.node p = .error e) ∨
    ∃ m n, other.node p = .ok m ∧ disk.node p = .ok n ∧ m.shape = n.shape := by
  unfold node
  rw [h.locate_eq]
  cases disk.locate true p with
  | error e => exact .inl ⟨e, rfl, rfl⟩
  | ok s =>
    cases s with
    | free => exact .inl ⟨_, rfl, rfl⟩
    | found q =>
      cases hn : disk.root.at? q with
      | none => exact .inl ⟨.notFound, by simp [Node.at?_eq_none_of_shape h.shape hn], by simp [hn]⟩
      | some n =>
        obtain ⟨m, hm, hshape⟩ := Node.exists_of_shape h.shape hn
        exact .inr ⟨m, n, by simp [hm], by simp [hn], hshape⟩

theorem isDir_eq (p : Path) : other.isDir p = disk.isDir p := by
  unfold isDir
  rcases h.node_cases p with ⟨e, hm, hn⟩ | ⟨m, n, hm, hn, hshape⟩ <;> rw [hm, hn]
  exact (Node.isDir_shape m).symm.trans (hshape ▸ Node.isDir_shape n)

theorem isFile_eq (p : Path) : other.isFile p = disk.isFile p := by
  unfold isFile
  rcases h.node_cases p with ⟨e, hm, hn⟩ | ⟨m, n, hm, hn, hshape⟩ <;> rw [hm, hn]
  exact (Node.isFile_shape m).symm.trans (hshape ▸ Node.isFile_shape n)

theorem list_eq (p : Path) : other.list p = disk.list p := by
  unfold list
  rcases h.node_cases p with ⟨e, hm, hn⟩ | ⟨m, n, hm, hn, hshape⟩ <;> rw [hm, hn]
  have hkind := Node.kind_eq_of_shape hshape
  cases n with
  | dir es =>
    obtain ⟨fs, rfl⟩ := Node.kind_eq_dir.mp hkind
    rw [Node.shape_dir, Node.shape_dir, Node.dir.injEq] at hshape
    have hlisted (es : List (Name × Node)) : (es.map fun e => (e.1, e.2.isDir)) =
        (es.map (Prod.map id Node.shape)).map fun e => (e.1, e.2.isDir) := by
      simp [Function.comp_def, Node.isDir_shape]
    exact congrArg Except.ok
      ((hlisted fs).trans ((congrArg (List.map _) hshape).trans (hlisted es).symm))
  | file born bytes access =>
    obtain ⟨bytes', rfl⟩ := Node.kind_eq_file.mp hkind
    rfl
  | link target =>
    obtain rfl := Node.kind_eq_link.mp hkind
    rfl
  | device kind =>
    obtain rfl := Node.kind_eq_device.mp hkind
    rfl

/-! ### Changes -/

/-- The same change elsewhere leaves the disks alike. -/
theorem put {dir : Place} {name : Name} {v : Node} (hdir : disk.root.HasDir dir)
    (hv : ∀ x q, v.at? (x :: q) = none)
    (hold : ∀ n, disk.root.at? (dir ++ [name]) = some n → v.kind = n.kind ∧ ∀ es, n ≠ .dir es)
    {faults faults' : Faults} (hfaults : faults' = faults) :
    AlikeBut place { disk with root := disk.root.put (dir ++ [name]) v, faults }
      { other with root := other.root.put (dir ++ [name]) v, faults := faults' } where
  shape := by simp only [Node.shape_put_eq, h.shape]
  bytes q hq := by
    have hdir' := Node.HasDir.of_shape h.shape hdir
    by_cases hplace : q = dir ++ [name]
    · subst hplace
      have hself := Node.at?_put_self hdir name v []
      have hself' := Node.at?_put_self hdir' name v []
      simp only [bytesAt?, hself, hself']
    · have hold' (m : Node) (hm : other.root.at? (dir ++ [name]) = some m) :
          v.kind = m.kind ∧ ∀ es, m ≠ .dir es := by
        obtain ⟨n, hn, hshape⟩ := Node.exists_of_shape h.shape.symm hm
        obtain ⟨hkind, hnot⟩ := hold n hn
        have hmn := Node.kind_eq_of_shape hshape
        refine ⟨hkind.trans hmn, ?_⟩
        rintro es rfl
        obtain ⟨es', rfl⟩ := Node.kind_eq_dir.mp hmn
        exact hnot es' rfl
      rw [(Updates.put faults' hdir' hv hold').bytesAt? hplace,
        (Updates.put faults hdir hv hold).bytesAt? hplace, h.bytes q hq]
  cwd := h.cwd
  removals := h.removals
  faults := hfaults

theorem overwrite (hcwd : disk.HasCwd) {q : Place} {born : Nat} {old : Bytes} {access : Access}
    (hfile : disk.root.at? q = some (.file born old access)) (new : Bytes)
    {faults faults' : Faults} (hfaults : faults' = faults) :
    AlikeBut place { disk with root := disk.root.put q (.file born new access), faults }
      { other with root := other.root.put q (.file born new access), faults := faults' } := by
  have hq : q ≠ [] := by
    rintro rfl
    obtain ⟨es, hes⟩ := hcwd.top
    rw [hfile] at hes
    cases hes
  rw [← List.dropLast_concat_getLast hq] at hfile ⊢
  refine h.put (.of_append (by simp) hfile) (Node.at?_cons_eq_none (by simp)) (fun n hn => ?_)
    hfaults
  rw [hfile] at hn
  cases hn
  exact ⟨rfl, by simp⟩

theorem makeDir (hcwd : disk.HasCwd) (p : Path) :
    (other.makeDir p).2 = (disk.makeDir p).2 ∧
      AlikeBut place (disk.makeDir p).1 (other.makeDir p).1 := by
  unfold Disk.makeDir
  rw [h.locate_eq]
  cases hloc : disk.locate false (withoutSlashes p) with
  | error e => exact ⟨rfl, h⟩
  | ok s =>
    cases s with
    | found q => exact ⟨rfl, h⟩
    | free dir name =>
      obtain ⟨hdir, hnone⟩ := Node.locate_names hcwd hloc
      refine ⟨rfl, h.put hdir (fun x q => ?_) (fun n hn => ?_) h.faults⟩
      · simp [Node.at?_cons, Node.child?, Node.entries]
      · rw [hnone] at hn
        cases hn

theorem create (hcwd : disk.HasCwd) {p : Path} (hp : ¬ disk.Uses place (.create p)) :
    (other.create p).2 = (disk.create p).2 ∧
      AlikeBut place (disk.create p).1 (other.create p).1 := by
  unfold Disk.create
  rw [h.locate_eq, h.locate_eq]
  split
  · cases disk.locate false (withoutSlashes p) <;> exact ⟨rfl, h⟩
  cases hloc : disk.locate true p with
  | error e => exact ⟨rfl, h⟩
  | ok s =>
    cases s with
    | free dir name =>
      obtain ⟨hdir, hnone⟩ := Node.locate_names hcwd hloc
      have hnew := h.put (v := .file disk.removals [] .normal) hdir
        (Node.at?_cons_eq_none (by simp)) (fun n hn => by rw [hnone] at hn; cases hn) h.faults
      simp only [h.removals] at hnew ⊢
      exact ⟨trivial, hnew⟩
    | found q =>
      have hq : q ≠ place := fun heq => hp (heq ▸ hloc)
      by_cases hdir : disk.root.HasDir q
      · obtain ⟨es, hes⟩ := hdir
        obtain ⟨es', hes'⟩ := Node.HasDir.of_shape h.shape ⟨es, hes⟩
        simp only [hes, hes']
        exact ⟨trivial, h⟩
      · dsimp only
        rw [h.at?_eq hq hdir]
        cases hn : disk.root.at? q with
        | none => exact ⟨rfl, h⟩
        | some n =>
          cases n with
          | dir es => exact absurd ⟨es, hn⟩ hdir
          | file born bytes access => exact ⟨rfl, h.overwrite hcwd hn [] h.faults⟩
          | link | device => exact ⟨rfl, h⟩

/-! ### Reading and writing -/

theorem openRead {p : Path} (hp : ¬ disk.Uses place (.openRead p)) :
    other.openRead p = disk.openRead p := by
  unfold Disk.openRead
  rw [h.locate_eq]
  cases hloc : disk.locate true p with
  | error e => rfl
  | ok s =>
    cases s with
    | free => rfl
    | found q =>
      have hq : q ≠ place := fun heq => hp (heq ▸ hloc)
      by_cases hdir : disk.root.HasDir q
      · obtain ⟨es, hes⟩ := hdir
        obtain ⟨es', hes'⟩ := Node.HasDir.of_shape h.shape ⟨es, hes⟩
        simp only [hes, hes']
      · simp only [h.at?_eq hq hdir]

theorem read {handle : Handle} (hplace : handle.place ≠ place) (limit : Nat) :
    (other.read handle limit).2 = (disk.read handle limit).2 ∧
      AlikeBut place (disk.read handle limit).1 (other.read handle limit).1 := by
  have hfaults (faults : Faults) : AlikeBut place { disk with faults } { other with faults } :=
    ⟨h.shape, h.bytes, h.cwd, h.removals, rfl⟩
  unfold Disk.read
  by_cases hdir : disk.root.HasDir handle.place
  · obtain ⟨es, hes⟩ := hdir
    obtain ⟨es', hes'⟩ := Node.HasDir.of_shape h.shape ⟨es, hes⟩
    simp only [hes, hes']
    exact ⟨trivial, h⟩
  rw [h.at?_eq hplace hdir, h.faults]
  cases hn : disk.root.at? handle.place with
  | none => exact ⟨rfl, h⟩
  | some n =>
    cases n with
    | dir es => exact absurd ⟨es, hn⟩ hdir
    | link target => exact ⟨rfl, h⟩
    | device kind => cases kind <;> exact ⟨rfl, h⟩
    | file born bytes access =>
      dsimp only
      split
      · split
        · exact ⟨rfl, h⟩
        · exact ⟨rfl, hfaults _⟩
      · exact ⟨rfl, h⟩

theorem write (hcwd : disk.HasCwd) {handle : Handle} (hplace : handle.place ≠ place) (bs : Bytes) :
    (other.write handle bs).2 = (disk.write handle bs).2 ∧
      AlikeBut place (disk.write handle bs).1 (other.write handle bs).1 := by
  unfold Disk.write
  by_cases hdir : disk.root.HasDir handle.place
  · obtain ⟨es, hes⟩ := hdir
    obtain ⟨es', hes'⟩ := Node.HasDir.of_shape h.shape ⟨es, hes⟩
    simp only [hes, hes']
    exact ⟨trivial, h⟩
  rw [h.at?_eq hplace hdir, h.faults]
  cases hn : disk.root.at? handle.place with
  | none => exact ⟨rfl, h⟩
  | some n =>
    cases n with
    | dir es => exact absurd ⟨es, hn⟩ hdir
    | link target => exact ⟨rfl, h⟩
    | device kind => cases kind <;> exact ⟨rfl, h⟩
    | file born old access =>
      dsimp only
      split
      · exact ⟨rfl, h.overwrite hcwd hn _ rfl⟩
      · exact ⟨rfl, h⟩

/-- A call that has nothing to do with the file is answered alike, and leaves the disks alike. -/
theorem answer (hcwd : disk.HasCwd) {c : Call} (hc : ¬ disk.Uses place c) :
    (other.answer c).2 = (disk.answer c).2 ∧
      AlikeBut place (disk.answer c).1 (other.answer c).1 := by
  cases c with
  | isDir p => exact ⟨h.isDir_eq p, h⟩
  | isFile p => exact ⟨h.isFile_eq p, h⟩
  | list p => exact ⟨h.list_eq p, h⟩
  | openRead p => exact ⟨h.openRead hc, h⟩
  | makeDir p => exact h.makeDir hcwd p
  | create p => exact h.create hcwd hc
  | read handle limit => exact h.read hc limit
  | write handle bs => exact h.write hcwd hc bs

/-- So is work of such calls. -/
theorem run {α : Type} {w : Work α} (hcwd : disk.HasCwd)
    (hw : ∀ e ∈ w.history disk, ¬ e.1.Uses place e.2) :
    (w.run other).2 = (w.run disk).2 ∧ AlikeBut place (w.run disk).1 (w.run other).1 := by
  induction w generalizing disk other with
  | done a => exact ⟨rfl, h⟩
  | call c next ih =>
    obtain ⟨hc, hnext⟩ := List.forall_mem_cons.mp hw
    obtain ⟨hanswer, hlater⟩ := h.answer hcwd hc
    simp only [Work.run, hanswer]
    exact ih _ hlater ((answer_updates hcwd c).hasCwd hcwd) hnext

end AlikeBut

end Disk

end NodeLogs
