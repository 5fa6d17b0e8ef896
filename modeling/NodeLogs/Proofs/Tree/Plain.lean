import NodeLogs.Proofs.Tree.Directories
import NodeLogs.Proofs.Tree.Paths

/-! Plain trees: without links, and with entries in their directories that have proper
names, each of its own. They stay plain whatever calls are made. A path is followed in
them step by step, and as directories stay, where it leads to is where it goes on
leading to. -/

namespace NodeLogs

/-- The place of what is there, or of what could be. -/
def Spot.place : Spot → Place
  | found place => place
  | free dir name => dir ++ [name]

namespace Node

mutual

/-- No links, and in every directory proper names, each once. -/
def isPlain : Node → Bool
  | dir es => decide (es.map Prod.fst).Nodup && allPlain es
  | link _ => false
  | _ => true

def allPlain : List (Name × Node) → Bool
  | [] => true
  | (name, n) :: es => decide (EntryName name) && n.isPlain && allPlain es

end

theorem allPlain_iff {es : List (Name × Node)} :
    allPlain es ↔ ∀ e ∈ es, EntryName e.1 ∧ e.2.isPlain := by
  induction es with
  | nil => simp [allPlain]
  | cons e es ih =>
    obtain ⟨name, n⟩ := e
    unfold allPlain
    simp [ih, and_assoc]

theorem isPlain_dir {es : List (Name × Node)} :
    (dir es).isPlain ↔ (es.map Prod.fst).Nodup ∧ ∀ e ∈ es, EntryName e.1 ∧ e.2.isPlain := by
  conv => lhs; unfold isPlain
  simp [allPlain_iff]

/-- Everything in a plain tree is plain. -/
theorem isPlain_at? {root n : Node} (hroot : root.isPlain) {place : Place}
    (h : root.at? place = some n) : n.isPlain := by
  induction place generalizing root with
  | nil =>
    cases h
    exact hroot
  | cons name place ih =>
    rw [at?_cons] at h
    obtain ⟨c, hc, hn⟩ := Option.bind_eq_some_iff.mp h
    cases root with
    | dir es => exact ih ((isPlain_dir.mp hroot).2 _ (Keyed.mem_of_lookup hc)).2 hn
    | file | link | device => cases hc

theorem not_link {root : Node} (hroot : root.isPlain) (place : Place) (target : Path) :
    root.at? place ≠ some (link target) := by
  intro h
  have := isPlain_at? hroot h
  unfold isPlain at this
  cases this

theorem entryName_of_at? {root n : Node} (hroot : root.isPlain) {place : Place} {name : Name}
    (hat : root.at? (place ++ [name]) = some n) : EntryName name := by
  rw [at?_append] at hat
  obtain ⟨m, hm, hn⟩ := Option.bind_eq_some_iff.mp hat
  rw [at?_cons] at hn
  obtain ⟨c, hc, -⟩ := Option.bind_eq_some_iff.mp hn
  cases m with
  | dir es => exact ((isPlain_dir.mp (isPlain_at? hroot hm)).2 _ (Keyed.mem_of_lookup hc)).1
  | file | link | device => cases hc

/-- What has its name in a directory is an entry of it. -/
theorem at?_entry {root n : Node} (hroot : root.isPlain) {place : Place}
    {es : List (Name × Node)} (hes : root.at? place = some (dir es)) {name : Name} :
    root.at? (place ++ [name]) = some n ↔ (name, n) ∈ es := by
  obtain ⟨hnodup, -⟩ := isPlain_dir.mp (isPlain_at? hroot hes)
  rw [at?_append, hes, Option.bind_some, at?_cons]
  simp only [child?, entries, at?_nil, Option.bind_fun_some]
  exact ⟨Keyed.mem_of_lookup, Keyed.lookup_of_mem hnodup⟩

/-- A tree stays plain when something plain is put under a proper name. -/
theorem isPlain_put {root v : Node} (hroot : root.isPlain) (hv : v.isPlain) {place : Place}
    {name : Name} (hname : EntryName name) : (root.put (place ++ [name]) v).isPlain := by
  induction place generalizing root with
  | nil =>
    cases root with
    | dir es =>
      obtain ⟨hnodup, hes⟩ := isPlain_dir.mp hroot
      rw [List.nil_append, put_singleton]
      refine isPlain_dir.mpr ⟨?_, fun e he => ?_⟩
      · exact Keyed.nodup_keys_set name v hnodup
      · rcases Keyed.mem_set he with rfl | he
        · exact ⟨hname, hv⟩
        · exact hes e he
    | file | link | device => rwa [put_of_not_dir (by simp)]
  | cons x place ih =>
    cases root with
    | dir es =>
      obtain ⟨hnodup, hes⟩ := isPlain_dir.mp hroot
      rw [List.cons_append, put_cons es x (by simp)]
      refine isPlain_dir.mpr ⟨?_, fun e he => ?_⟩
      · rwa [Keyed.keys_alter_map]
      · rcases Keyed.mem_alter_map he with he | ⟨u, hu, rfl⟩
        · exact hes e he
        · exact ⟨(hes _ hu).1, ih (hes _ hu).2⟩
    | file | link | device => rwa [put_of_not_dir (by simp)]

/-! ### Following steps -/

/-- Goes along steps where there are no links. -/
def go (root : Node) : Place → List Name → Except OsError Spot :=
  root.walkSteps true fun _ _ => .error .tooManyLinks

section Go

variable (root : Node) (here : Place)

@[simp] theorem go_nil : root.go here [] = .ok (.found here) := rfl

@[simp] theorem go_dot (rest : List Name) : root.go here (Path.dot :: rest) = root.go here rest := by
  exact walkSteps_cons_dot _ _ _ _ _

theorem go_dots (rest : List Name) :
    root.go here (Path.dots :: rest) = root.go here.dropLast rest := by
  exact walkSteps_cons_dots _ _ _ _ _

end Go

variable {root : Node} {here : Place}

theorem go_cons (hroot : root.isPlain) {step : Name} (hdot : step ≠ Path.dot)
    (hdots : step ≠ Path.dots) (rest : List Name) :
    root.go here (step :: rest) =
      if nameLimit < step.length then .error .nameTooLong
      else match root.at? (here ++ [step]) with
        | none => if rest.isEmpty then .ok (.free here step) else .error .notFound
        | some (.dir _) => root.go (here ++ [step]) rest
        | some _ => if rest.isEmpty then .ok (.found (here ++ [step])) else .error .notADirectory := by
  unfold go
  conv => lhs; unfold walkSteps
  rw [if_neg hdot, if_neg hdots]
  congr 1
  cases h : root.at? (here ++ [step]) with
  | none => rfl
  | some n =>
    cases n with
    | link target => exact absurd h (not_link hroot _ _)
    | dir | file | device => rfl

/-- Where there are no links it does not matter how they would be followed. -/
theorem walkSteps_eq_go (hroot : root.isPlain) (followLast : Bool)
    (follow : Place → List Name → Except OsError Spot) (steps : List Name) :
    root.walkSteps followLast follow here steps = root.go here steps := by
  induction steps generalizing here with
  | nil => rfl
  | cons step rest ih =>
    unfold walkSteps
    split
    next hdot => rw [hdot, go_dot, ih]
    split
    next hdots => rw [hdots, go_dots, ih]
    next hdot hdots =>
      rw [go_cons hroot hdot hdots]
      congr 1
      cases h : root.at? (here ++ [step]) with
      | none => rfl
      | some n =>
        cases n with
        | link target => exact absurd h (not_link hroot _ _)
        | dir => exact ih
        | file | device => rfl

/-- Steps in two parts: the second goes on from where the first led to, which must be
a directory if there are more steps. -/
theorem go_append (hroot : root.isPlain) (hhere : root.HasDir here) (first second : List Name) :
    root.go here (first ++ second) =
      match root.go here first with
      | .error e => .error e
      | .ok (.free place name) =>
        if second.isEmpty then .ok (.free place name) else .error .notFound
      | .ok (.found place) =>
        if root.HasDir place then root.go place second
        else if second.isEmpty then .ok (.found place) else .error .notADirectory := by
  induction first generalizing here with
  | nil => simp [hhere]
  | cons step rest ih =>
    rw [List.cons_append]
    by_cases hdot : step = Path.dot
    · rw [hdot, go_dot, go_dot, ih hhere]
    by_cases hdots : step = Path.dots
    · rw [hdots, go_dots, go_dots, ih hhere.dropLast]
    rw [go_cons hroot hdot hdots, go_cons hroot hdot hdots]
    by_cases hlong : nameLimit < step.length
    · simp [hlong]
    simp only [if_neg hlong]
    cases h : root.at? (here ++ [step]) with
    | none => cases rest <;> cases second <;> simp
    | some n =>
      cases n with
      | dir es => exact ih ⟨es, h⟩
      | file | link | device =>
        have hnot : ¬ root.HasDir (here ++ [step]) := by simp [HasDir, h]
        cases rest <;> cases second <;> simp [hnot]

/-- A name that is free where steps lead to is the last of them. -/
theorem go_free (hroot : root.isPlain) {steps : List Name} {place : Place} {name : Name}
    (h : root.go here steps = .ok (.free place name)) :
    name ∈ steps ∧ name ≠ Path.dot ∧ name ≠ Path.dots ∧ name.length ≤ nameLimit := by
  induction steps generalizing here with
  | nil => cases h
  | cons step rest ih =>
    by_cases hdot : step = Path.dot
    · rw [hdot, go_dot] at h
      exact (ih h).imp_left (List.mem_cons_of_mem _)
    by_cases hdots : step = Path.dots
    · rw [hdots, go_dots] at h
      exact (ih h).imp_left (List.mem_cons_of_mem _)
    rw [go_cons hroot hdot hdots] at h
    split at h
    · cases h
    next hlong =>
      split at h
      · split at h
        · cases h
          exact ⟨List.mem_cons_self, hdot, hdots, Nat.not_lt.mp hlong⟩
        · cases h
      · exact (ih h).imp_left (List.mem_cons_of_mem _)
      · split at h <;> cases h

/-- Steps that go down lead to the place that they spell. -/
theorem go_place (hroot : root.isPlain) {steps : List Name} (hdown : Path.dots ∉ steps)
    {spot : Spot} (h : root.go here steps = .ok spot) :
    spot.place = here ++ steps.filter (· ≠ Path.dot) := by
  induction steps generalizing here with
  | nil =>
    cases h
    simp [Spot.place]
  | cons step rest ih =>
    obtain ⟨hdots, hrest⟩ := not_or.mp (mt List.mem_cons.mpr hdown)
    by_cases hdot : step = Path.dot
    · rw [hdot, go_dot] at h
      simpa [hdot] using ih hrest h
    rw [go_cons hroot hdot (Ne.symm hdots)] at h
    split at h
    · cases h
    have hend (hnil : rest.isEmpty) :
        here ++ [step] = here ++ (step :: rest).filter (· ≠ Path.dot) := by
      rw [List.isEmpty_iff.mp hnil]
      simp [hdot]
    split at h
    · split at h
      next hnil =>
        cases h
        exact hend hnil
      · cases h
    · simpa [hdot] using ih hrest h
    · split at h
      next hnil =>
        cases h
        exact hend hnil
      · cases h

/-- What is no directory goes by the last of the steps that lead to it. -/
theorem go_last (hroot : root.isPlain) (hhere : root.HasDir here) {steps : List Name} {place : Place}
    (h : root.go here steps = .ok (.found place)) (hnot : ¬ root.HasDir place) :
    ∃ above name dir, steps = above ++ [name] ∧ name ≠ Path.dot ∧ name ≠ Path.dots ∧
      place = dir ++ [name] := by
  induction steps generalizing here with
  | nil =>
    cases h
    exact absurd hhere hnot
  | cons step rest ih =>
    have hbehind {here : Place} (hhere : root.HasDir here)
        (h : root.go here rest = .ok (.found place)) : ∃ above name dir,
          step :: rest = above ++ [name] ∧ name ≠ Path.dot ∧ name ≠ Path.dots ∧
            place = dir ++ [name] := by
      obtain ⟨above, name, dir, hrest, hname⟩ := ih hhere h
      exact ⟨step :: above, name, dir, congrArg (step :: ·) hrest, hname⟩
    by_cases hdot : step = Path.dot
    · rw [hdot, go_dot] at h
      exact hbehind hhere h
    by_cases hdots : step = Path.dots
    · rw [hdots, go_dots] at h
      exact hbehind hhere.dropLast h
    rw [go_cons hroot hdot hdots] at h
    split at h
    · cases h
    split at h
    · split at h <;> cases h
    next es hes => exact hbehind ⟨es, hes⟩ h
    · split at h
      next hnil =>
        cases h
        exact ⟨[], step, here, by simp [List.isEmpty_iff.mp hnil], hdot, hdots, rfl⟩
      · cases h

/-- Steps that go down lead to the directory at the place that they spell. -/
theorem go_of_hasDir (hroot : root.isPlain) {steps : List Name} (hdown : Path.dots ∉ steps)
    (hdir : root.HasDir (here ++ steps.filter (· ≠ Path.dot))) :
    root.go here steps = .ok (.found (here ++ steps.filter (· ≠ Path.dot))) := by
  induction steps generalizing here with
  | nil => simp
  | cons step rest ih =>
    obtain ⟨hdots, hrest⟩ := not_or.mp (mt List.mem_cons.mpr hdown)
    by_cases hdot : step = Path.dot
    · rw [hdot, go_dot]
      simpa [hdot] using ih hrest (by simpa [hdot] using hdir)
    have hsplit : here ++ (step :: rest).filter (· ≠ Path.dot) =
        (here ++ [step]) ++ rest.filter (· ≠ Path.dot) := by simp [hdot]
    rw [hsplit] at hdir ⊢
    obtain ⟨es, hes⟩ := hdir.left
    rw [go_cons hroot hdot (Ne.symm hdots), hes,
      if_neg (Nat.not_lt.mpr (entryName_of_at? hroot hes).length_le)]
    exact ih hrest hdir

/-- What is found stays found while nothing is lost. -/
theorem go_keeps {later : Node} (hroot : root.isPlain) (hlater : later.isPlain)
    (hkinds : ∀ place n, root.at? place = some n →
      ∃ m, later.at? place = some m ∧ m.kind = n.kind)
    {steps : List Name} {place : Place} (h : root.go here steps = .ok (.found place)) :
    later.go here steps = .ok (.found place) := by
  induction steps generalizing here with
  | nil => exact h
  | cons step rest ih =>
    by_cases hdot : step = Path.dot
    · rw [hdot, go_dot] at h ⊢
      exact ih h
    by_cases hdots : step = Path.dots
    · rw [hdots, go_dots] at h ⊢
      exact ih h
    rw [go_cons hroot hdot hdots] at h
    rw [go_cons hlater hdot hdots]
    split at h
    · cases h
    next hlong =>
      rw [if_neg hlong]
      cases hn : root.at? (here ++ [step]) with
      | none =>
        rw [hn] at h
        dsimp only at h
        split at h <;> cases h
      | some n =>
        obtain ⟨m, hm, hkind⟩ := hkinds _ _ hn
        rw [hn] at h
        rw [hm]
        cases n <;> cases m <;> simp only [kind, reduceCtorEq] at hkind <;>
          first
          | exact ih h
          | exact h

end Node

namespace Disk

/-- There are no links, and the working directory is there. -/
structure Plain (disk : Disk) : Prop where
  cwd : disk.HasCwd
  tree : disk.root.isPlain

instance (disk : Disk) : Decidable disk.Plain :=
  decidable_of_iff (disk.HasCwd ∧ disk.root.isPlain) ⟨fun ⟨h, h'⟩ => ⟨h, h'⟩, fun ⟨h, h'⟩ => ⟨h, h'⟩⟩

/-- Where a path begins. -/
def start (disk : Disk) (p : Path) : Place :=
  if p.isAbsolute then [] else disk.cwd

variable {disk later : Disk}

namespace Plain

variable (h : disk.Plain)
include h

theorem hasDir_start (p : Path) : disk.root.HasDir (disk.start p) := by
  unfold start
  split
  · exact h.cwd.top
  · exact h.cwd

theorem locate_eq (followLast : Bool) (p : Path) :
    disk.locate followLast p =
      if 0 ∈ p.bytes then .error .zeroByte
      else if p.bytes = [] then .error .notFound
      else disk.root.go (disk.start p) p.steps := by
  have hsteps : disk.root.walkLinks followLast linkLimit (disk.start p) p.steps =
      disk.root.go (disk.start p) p.steps := Node.walkSteps_eq_go h.tree ..
  rw [← hsteps]
  by_cases hzero : 0 ∈ p.bytes <;> by_cases hnil : p.bytes = [] <;>
    simp [locate, Node.locate, start, hzero, hnil]

/-- A name that is free can be given to an entry. -/
theorem entryName_of_free {followLast : Bool} {p : Path} {place : Place} {name : Name}
    (hfree : disk.locate followLast p = .ok (.free place name)) : EntryName name := by
  rw [h.locate_eq] at hfree
  split at hfree
  · cases hfree
  next hzero =>
    split at hfree
    · cases hfree
    · obtain ⟨hmem, hdot, hdots, hlength⟩ := Node.go_free h.tree hfree
      have hname : name ∈ p.names := by
        rw [Path.steps_eq] at hmem
        rcases List.mem_append.mp hmem with hmem | hmem
        · exact hmem
        · split at hmem
          · exact absurd (List.mem_singleton.mp hmem) hdot
          · cases hmem
      obtain ⟨hne, hslash, hbytes⟩ := Path.mem_names hname
      exact ⟨⟨hne, hdot, hdots, fun hmem => hzero (hbytes 0 hmem), hslash⟩, hlength⟩

theorem entryName_of_at? {place : Place} {name : Name} {n : Node}
    (hat : disk.root.at? (place ++ [name]) = some n) : EntryName name :=
  Node.entryName_of_at? h.tree hat

/-- A plain tree stays plain when a node is put over another. -/
theorem isPlain_putOver {place : Place} {old new : Node} (hold : disk.root.at? place = some old)
    (hnew : new.isPlain) : (disk.root.put place new).isPlain := by
  by_cases hplace : place = []
  · rw [hplace, Node.put_nil]
    exact h.tree
  · rw [← List.dropLast_concat_getLast hplace] at hold ⊢
    exact Node.isPlain_put h.tree hnew (h.entryName_of_at? hold)

/-- A path to what is no directory ends with its name. -/
theorem fileName?_of_found {followLast : Bool} {p : Path} {place : Place}
    (hloc : disk.locate followLast p = .ok (.found place)) (hnot : ¬ disk.root.HasDir place) :
    ∃ dir name, place = dir ++ [name] ∧ p.fileName? = some name := by
  rw [h.locate_eq] at hloc
  split at hloc
  · cases hloc
  split at hloc
  · cases hloc
  obtain ⟨above, name, dir, hsteps, hdot, hdots, hplace⟩ :=
    Node.go_last h.tree (h.hasDir_start p) hloc hnot
  have hnames : p.names = above ++ [name] := by
    rw [Path.steps_eq] at hsteps
    split at hsteps
    · exact absurd (List.cons.inj (List.append_inj_right' hsteps rfl)).1.symm hdot
    · rwa [List.append_nil] at hsteps
  exact ⟨dir, name, hplace, Path.fileName?_of_names hnames hdot hdots⟩

/-- What a path has led to it goes on leading to. -/
theorem locate_keeps {S : Place → Prop} (hlater : later.Plain) (hu : Updates S disk later)
    {followLast : Bool} {p : Path} {place : Place}
    (hloc : disk.locate followLast p = .ok (.found place)) :
    later.locate followLast p = .ok (.found place) := by
  have hstart : later.start p = disk.start p := by rw [start, start, hu.cwd]
  rw [h.locate_eq] at hloc
  rw [hlater.locate_eq, hstart]
  split at hloc
  · cases hloc
  next hzero =>
    split at hloc
    · cases hloc
    next hne =>
      rw [if_neg hzero, if_neg hne]
      exact Node.go_keeps h.tree hlater.tree hu.kinds hloc

/-- Calls keep a disk plain. -/
theorem answer (c : Call) : (disk.answer c).1.Plain := by
  refine ⟨(answer_updates h.cwd c).hasCwd h.cwd, ?_⟩
  have hroot := disk.answer_alters c
  generalize (disk.answer c).1.root = root at hroot ⊢
  cases hroot with
  | not => exact h.tree
  | make hfree hv =>
    refine Node.isPlain_put h.tree ?_ (h.entryName_of_free hfree)
    rcases hv with rfl | rfl
    · exact Node.isPlain_dir.mpr ⟨List.nodup_nil, by simp⟩
    · unfold Node.isPlain
      rfl
  | overwrite new hold => exact h.isPlain_putOver hold (by unfold Node.isPlain; rfl)

/-- Work keeps a disk plain. -/
theorem run {α : Type} (w : Work α) : (w.run disk).1.Plain := by
  induction w generalizing disk with
  | done a => exact h
  | call c next ih => exact ih _ (h.answer c)

end Plain

/-! ### Directories that paths lead to -/

/-- Along its names, a path leads to a directory. -/
structure LeadsTo (disk : Disk) (p : Path) (place : Place) : Prop where
  no_zero : 0 ∉ p.bytes
  go_eq : disk.root.go (disk.start p) p.names = .ok (.found place)
  hasDir : disk.root.HasDir place

variable {p : Path} {place : Place} {name : Name}

/-- A directory's path leads to it. -/
theorem Plain.leadsTo (h : disk.Plain) {followLast : Bool}
    (hloc : disk.locate followLast p = .ok (.found place)) (hdir : disk.root.HasDir place) :
    disk.LeadsTo p place := by
  rw [h.locate_eq] at hloc
  split at hloc
  · cases hloc
  next hzero =>
    split at hloc
    · cases hloc
    · refine ⟨hzero, ?_, hdir⟩
      rw [Path.steps_eq, Node.go_append h.tree (h.hasDir_start p)] at hloc
      split at hloc
      · cases hloc
      · split at hloc <;> cases hloc
      next q hq =>
        split at hloc
        next hqdir =>
          have hdot : disk.root.go q (if p.endsInSlash then [Path.dot] else []) = .ok (.found q) := by
            split <;> simp
          rwa [hdot, ← hq] at hloc
        next hqdir =>
          cases hslash : p.endsInSlash <;> simp [hslash] at hloc
          exact absurd (hloc ▸ hdir) hqdir

theorem isDir_iff (disk : Disk) (p : Path) :
    disk.isDir p ↔ ∃ place, disk.locate true p = .ok (.found place) ∧ disk.root.HasDir place := by
  unfold isDir node
  cases hloc : disk.locate true p with
  | error e => simp
  | ok spot =>
    cases spot with
    | free place name => simp
    | found place =>
      simp only [Except.ok.injEq, Spot.found.injEq]
      cases hn : disk.root.at? place with
      | none => simp [Node.HasDir, hn]
      | some n => cases n <;> simp [Node.HasDir, hn, Node.isDir]

/-- What is listed are the entries of a directory. -/
theorem list_eq_ok {es : List (Name × Bool)} (hlist : disk.list p = .ok es) :
    ∃ place entries, disk.root.at? place = some (.dir entries) ∧
      es = entries.map fun e => (e.1, e.2.isDir) := by
  unfold list node at hlist
  cases hloc : disk.locate true p with
  | error e =>
    rw [hloc] at hlist
    cases hlist
  | ok spot =>
    rw [hloc] at hlist
    cases spot with
    | free => cases hlist
    | found place =>
      dsimp only at hlist
      cases hn : disk.root.at? place with
      | none =>
        rw [hn] at hlist
        cases hlist
      | some n =>
        rw [hn] at hlist
        cases n with
        | dir entries =>
          cases hlist
          exact ⟨place, entries, hn, rfl⟩
        | file | link | device => cases hlist

/-- On a plain disk, what is listed are proper names, each once. -/
theorem Plain.list_names (h : disk.Plain) {es : List (Name × Bool)}
    (hlist : disk.list p = .ok es) :
    (es.map Prod.fst).Nodup ∧ ∀ e ∈ es, EntryName e.1 := by
  obtain ⟨place, entries, hn, rfl⟩ := list_eq_ok hlist
  obtain ⟨hnodup, hproper⟩ := Node.isPlain_dir.mp (Node.isPlain_at? h.tree hn)
  refine ⟨by simpa [List.map_map, Function.comp_def] using hnodup, fun e he => ?_⟩
  obtain ⟨entry, hentry, rfl⟩ := List.mem_map.mp he
  exact (hproper entry hentry).1

/-- A directory's path is not empty, and it leads there. -/
theorem Plain.leadsTo_of_isDir (h : disk.Plain) (hdir : disk.isDir p) :
    p.bytes ≠ [] ∧ ∃ place, disk.LeadsTo p place := by
  obtain ⟨place, hloc, hplace⟩ := (disk.isDir_iff p).mp hdir
  refine ⟨fun hnil => ?_, place, h.leadsTo hloc hplace⟩
  rw [h.locate_eq, if_pos hnil] at hloc
  split at hloc <;> cases hloc

namespace LeadsTo

theorem place_eq (h : disk.LeadsTo p place) {q : Place} (hq : disk.LeadsTo p q) : place = q := by
  simpa using h.go_eq.symm.trans hq.go_eq

/-- Directories stay where they are. -/
theorem keeps {S : Place → Prop} (h : disk.LeadsTo p place) (hplain : disk.Plain)
    (hlater : later.Plain) (hu : Updates S disk later) : later.LeadsTo p place := by
  refine ⟨h.no_zero, ?_, hu.hasDir h.hasDir⟩
  have hstart : later.start p = disk.start p := by rw [start, start, hu.cwd]
  rw [hstart]
  exact Node.go_keeps hplain.tree hlater.tree hu.kinds h.go_eq

variable (h : disk.LeadsTo p place) (hplain : disk.Plain)
include h hplain

theorem answer (c : Call) : (disk.answer c).1.LeadsTo p place :=
  h.keeps hplain (hplain.answer c) (answer_updates hplain.cwd c)

theorem locate_eq (hne : p.bytes ≠ []) (followLast : Bool) :
    disk.locate followLast p = .ok (.found place) := by
  rw [hplain.locate_eq, if_neg h.no_zero, if_neg hne, Path.steps_eq,
    Node.go_append hplain.tree (hplain.hasDir_start p), h.go_eq]
  simp only [h.hasDir, if_true]
  split <;> simp

theorem isDir (hne : p.bytes ≠ []) : disk.isDir p :=
  (disk.isDir_iff p).mpr ⟨place, h.locate_eq hplain hne true, h.hasDir⟩

/-- An entry's path leads on from where the directory's leads. -/
theorem locate_name (hname : StepName name) (followLast : Bool) :
    disk.locate followLast (p.child name) = disk.root.go place [name] := by
  have hstart : disk.start (p.child name) = disk.start p := by
    rw [start, start, Path.isAbsolute_child hname]
  rw [hplain.locate_eq, if_neg (mt (Path.zero_mem_child hname p).mp h.no_zero),
    if_neg (Path.child_ne_nil hname p), Path.steps_child hname, hstart,
    Node.go_append hplain.tree (hplain.hasDir_start p), h.go_eq]
  simp only [h.hasDir, if_true]

theorem locate_child (hname : EntryName name) (followLast : Bool) :
    disk.locate followLast (p.child name) =
      .ok (if (disk.root.at? (place ++ [name])).isSome then .found (place ++ [name])
        else .free place name) := by
  rw [h.locate_name hplain hname.toStepName, Node.go_cons hplain.tree hname.ne_dot hname.ne_dots,
    if_neg (Nat.not_lt.mpr hname.length_le)]
  cases hn : disk.root.at? (place ++ [name]) with
  | none => rfl
  | some n => cases n <;> rfl

theorem place_child (hname : EntryName name) {q : Place} (hq : disk.LeadsTo (p.child name) q) :
    q = place ++ [name] := by
  have hloc := hq.locate_eq hplain (Path.child_ne_nil hname.toStepName p) true
  rw [h.locate_child hplain hname] at hloc
  split at hloc <;> cases hloc
  rfl

theorem child (hname : EntryName name) (hdir : disk.root.HasDir (place ++ [name])) :
    disk.LeadsTo (p.child name) (place ++ [name]) := by
  have hloc : disk.locate true (p.child name) = .ok (.found (place ++ [name])) := by
    obtain ⟨es, hes⟩ := hdir
    rw [h.locate_child hplain hname, hes]
    rfl
  exact hplain.leadsTo hloc hdir

section Join

variable {sub : Path} (hsub : sub.GoesDown)
include hsub

theorem go_join : disk.root.go (disk.start (p.join sub)) (p.join sub).names =
    disk.root.go place sub.names := by
  have hstart : disk.start (p.join sub) = disk.start p := by
    rw [start, start, Path.isAbsolute_join hsub.isAbsolute]
  rw [hstart, Path.names_join hsub.isAbsolute,
    Node.go_append hplain.tree (hplain.hasDir_start p), h.go_eq]
  simp only [h.hasDir, if_true]

/-- A path that goes down from a directory leads to the directory that it spells. -/
theorem join (hdir : disk.root.HasDir (place ++ sub.inside)) :
    disk.LeadsTo (p.join sub) (place ++ sub.inside) := by
  refine ⟨fun hzero => ?_, ?_, hdir⟩
  · rcases (Path.mem_bytes_join hsub.isAbsolute (by decide)).mp hzero with hzero | hzero
    · exact h.no_zero hzero
    · obtain ⟨name, hname, hmem⟩ := Path.exists_mem_names hzero (by decide)
      have hinside : name ∈ sub.inside := List.mem_filter.mpr ⟨hname, by
        simp only [decide_eq_true_eq]
        rintro rfl
        exact absurd hmem (by decide)⟩
      obtain ⟨above, below, hsplit⟩ := List.append_of_mem hinside
      rw [hsplit, ← List.singleton_append, ← List.append_assoc, ← List.append_assoc] at hdir
      obtain ⟨es, hes⟩ := hdir.left
      exact (hplain.entryName_of_at? hes).no_zero hmem
  · rw [h.go_join hplain hsub]
    exact Node.go_of_hasDir hplain.tree hsub.dots_not_mem hdir

theorem place_join {q : Place} (hq : disk.LeadsTo (p.join sub) q) : q = place ++ sub.inside := by
  have hgo := hq.go_eq
  rw [h.go_join hplain hsub] at hgo
  exact Node.go_place hplain.tree hsub.dots_not_mem hgo

end Join

end LeadsTo

/-- A path that goes down and leads to a directory leads there through the one it goes down
from. -/
theorem Plain.leadsTo_of_join (h : disk.Plain) {sub : Path} (hsub : sub.GoesDown) {q : Place}
    (hq : disk.LeadsTo (p.join sub) q) : ∃ place, disk.LeadsTo p place := by
  have hzero : 0 ∉ p.bytes := fun hmem =>
    hq.no_zero ((Path.mem_bytes_join hsub.isAbsolute (by decide)).mpr (.inl hmem))
  have hstart : disk.start (p.join sub) = disk.start p := by
    rw [start, start, Path.isAbsolute_join hsub.isAbsolute]
  have hgo := hq.go_eq
  rw [hstart, Path.names_join hsub.isAbsolute, Node.go_append h.tree (h.hasDir_start p)] at hgo
  cases hfirst : disk.root.go (disk.start p) p.names with
  | error e =>
    rw [hfirst] at hgo
    cases hgo
  | ok spot =>
    rw [hfirst] at hgo
    cases spot with
    | free =>
      dsimp only at hgo
      split at hgo <;> cases hgo
    | found place =>
      dsimp only at hgo
      refine ⟨place, hzero, hfirst, ?_⟩
      by_cases hdir : disk.root.HasDir place
      · exact hdir
      · rw [if_neg hdir] at hgo
        split at hgo <;> cases hgo
        exact absurd hq.hasDir hdir

/-- A path that ends with a name and leads somewhere leads there through a directory. -/
theorem Plain.leadsTo_of_child (h : disk.Plain) (hname : StepName name) {followLast : Bool}
    {spot : Spot} (hloc : disk.locate followLast (p.child name) = .ok spot) :
    ∃ place, disk.LeadsTo p place ∧ EntryName name := by
  have hstart : disk.start (p.child name) = disk.start p := by
    rw [start, start, Path.isAbsolute_child hname]
  rw [h.locate_eq] at hloc
  split at hloc
  · cases hloc
  next hzero =>
    have hzero := mt (Path.zero_mem_child hname p).mpr hzero
    rw [if_neg (Path.child_ne_nil hname p), Path.steps_child hname, hstart,
      Node.go_append h.tree (h.hasDir_start p)] at hloc
    split at hloc
    · cases hloc
    · cases hloc
    next q hq =>
      split at hloc
      next hdir =>
        rw [Node.go_cons h.tree hname.ne_dot hname.ne_dots] at hloc
        split at hloc
        · cases hloc
        next hlength => exact ⟨q, ⟨hzero, hq, hdir⟩, hname, Nat.not_lt.mp hlength⟩
      · cases hloc

end Disk

end NodeLogs
