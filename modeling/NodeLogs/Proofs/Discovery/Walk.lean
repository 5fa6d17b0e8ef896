import NodeLogs.Proofs.Discovery.Files

/-! The walk on plain disks. However the disk changes on the way, as long as no log
comes or goes the walk visits the logs that were there when it began, in their order. -/

namespace NodeLogs

/-! ### Work that differs in what it looks at -/

/-- Does the call only look at the tree? -/
def Call.isLook : Call → Bool
  | .isDir _ | .isFile _ | .list _ => true
  | _ => false

/-- A look changes nothing. -/
theorem Disk.answer_look {c : Call} (h : c.isLook) (disk : Disk) : (disk.answer c).1 = disk := by
  cases c <;> first | rfl | cases h

namespace Work

variable {α β : Type}

theorem created_look {c : Call} (h : c.isLook) (disk : Disk) : (Work.ask c).created disk = [] := by
  cases c <;> first | rfl | cases h

theorem opened_look {c : Call} (h : c.isLook) (disk : Disk) : (Work.ask c).opened disk = [] := by
  cases c <;> first | rfl | cases h

/-- The calls of work but for those that only look. -/
def deeds (w : Work α) (disk : Disk) : List (Disk × Call) :=
  (w.history disk).filter fun e => !e.2.isLook

theorem deeds_bind (w : Work α) (f : α → Work β) (disk : Disk) :
    (w >>= f).deeds disk = w.deeds disk ++ (f (w.run disk).2).deeds (w.run disk).1 := by
  simp [deeds]

/-- What looks do not bear on can be told from the other calls. -/
theorem filterMap_deeds (w : Work α) (disk : Disk) {g : Disk × Call → Option β}
    (hg : ∀ e, e.2.isLook → g e = none) :
    (w.deeds disk).filterMap g = (w.history disk).filterMap g := by
  rw [deeds, List.filterMap_filter]
  refine List.filterMap_congr fun e _ => ?_
  cases hlook : e.2.isLook with
  | false => rfl
  | true => exact (hg e hlook).symm

/-- Two pieces of work do the same on a disk, and differ at most in what they look at. -/
structure Alike (disk : Disk) (v w : Work α) : Prop where
  run : v.run disk = w.run disk
  deeds : v.deeds disk = w.deeds disk

namespace Alike

variable {disk : Disk} {u v w : Work α}

theorem refl (disk : Disk) (w : Work α) : Alike disk w w := ⟨rfl, rfl⟩

theorem trans (h : Alike disk u v) (h' : Alike disk v w) : Alike disk u w :=
  ⟨h.run.trans h'.run, h.deeds.trans h'.deeds⟩

theorem bind {f g : α → Work β} (h : Alike disk v w)
    (hfg : Alike (w.run disk).1 (f (w.run disk).2) (g (w.run disk).2)) :
    Alike disk (v >>= f) (w >>= g) where
  run := by rw [run_bind, run_bind, h.run, hfg.run]
  deeds := by rw [deeds_bind, deeds_bind, h.run, h.deeds, hfg.deeds]

/-- A look can be left out. -/
theorem look {c : Call} {f : c.Answer → Work β} {w : Work β} (hlook : c.isLook)
    (h : Alike disk (f (disk.answer c).2) w) : Alike disk (Work.ask c >>= f) w where
  run := by rw [run_bind, run_ask, disk.answer_look hlook, h.run]
  deeds := by
    have hnone : (Work.ask c).deeds disk = [] := by simp [Work.deeds, Work.ask, history, hlook]
    rw [deeds_bind, hnone, run_ask, disk.answer_look hlook, h.deeds]
    rfl

theorem opened (h : Alike disk v w) : v.opened disk = w.opened disk := by
  unfold Work.opened
  rw [← filterMap_deeds, ← filterMap_deeds, h.deeds]
  all_goals
    rintro ⟨d, c⟩ hlook
    cases c <;> first | rfl | cases hlook

theorem created (h : Alike disk v w) : v.created disk = w.created disk := by
  unfold Work.created
  rw [← filterMap_deeds, ← filterMap_deeds, h.deeds]
  all_goals
    rintro ⟨d, c⟩ hlook
    cases c <;> first | rfl | cases hlook

/-- What looks comply with can be told from the other calls. -/
theorem forall_deeds {P : Disk × Call → Prop} (hP : ∀ e, e.2.isLook → P e) (w : Work α) :
    (∀ e ∈ w.history disk, P e) ↔ ∀ e ∈ w.deeds disk, P e := by
  simp only [Work.deeds, List.mem_filter]
  refine ⟨fun h e he => h e he.1, fun h e he => ?_⟩
  cases hlook : e.2.isLook with
  | true => exact hP e hlook
  | false => exact h e ⟨he, by rw [hlook]; rfl⟩

theorem granted (h : Alike disk v w) : v.Granted disk ↔ w.Granted disk := by
  have hlook (e : Disk × Call) (hlook : e.2.isLook) : e.1.Grants e.2 := by
    obtain ⟨d, c⟩ := e
    cases c <;> trivial
  rw [Granted, Granted, forall_deeds hlook, forall_deeds hlook, h.deeds]

theorem accepted (h : Alike disk v w) : v.Accepted disk ↔ w.Accepted disk := by
  have hlook (e : Disk × Call) (hlook : e.2.isLook) : e.1.Accepts e.2 := by
    obtain ⟨d, c⟩ := e
    cases c <;> trivial
  rw [Accepted, Accepted, forall_deeds hlook, forall_deeds hlook, h.deeds]

/-- Both open nothing but regular files for writing, or neither does. -/
theorem opensFile (h : Alike disk v w) :
    (∀ e ∈ v.history disk, e.1.OpensFile e.2) ↔ ∀ e ∈ w.history disk, e.1.OpensFile e.2 := by
  have hlook (e : Disk × Call) (hlook : e.2.isLook) : e.1.OpensFile e.2 := by
    obtain ⟨d, c⟩ := e
    cases c <;> trivial
  rw [forall_deeds hlook, forall_deeds hlook, h.deeds]

end Alike

end Work

/-! ### Disks with the same logs -/

namespace Disk

/-- No log has come or gone, and nothing else has gone. -/
structure SameLogs (disk later : Disk) : Prop where
  files : SameFiles (fun place => isLogPlace place) disk later
  updates : ∃ S, Updates S disk later

namespace SameLogs

variable {disk later last : Disk}

theorem refl (disk : Disk) : SameLogs disk disk :=
  ⟨.refl _ _, fun _ => True, .refl _ _⟩

theorem trans (h : SameLogs disk later) (h' : SameLogs later last) : SameLogs disk last := by
  obtain ⟨S, hS⟩ := h.updates
  obtain ⟨T, hT⟩ := h'.updates
  exact ⟨h.files.trans h'.files, fun place => S place ∨ T place,
    (hS.mono fun _ => .inl).trans (hT.mono fun _ => .inr)⟩

/-- At a place there are the same logs below what is still there. -/
theorem files_below (h : SameLogs disk later) {place : Place} {m n : Node}
    (hn : disk.root.at? place = some n) (hm : later.root.at? place = some m) (below : Place)
    (hlog : isLogPlace (place ++ below)) : m.HasFile below ↔ n.HasFile below := by
  have hat {disk : Disk} {n : Node} (hn : disk.root.at? place = some n) :
      disk.root.at? (place ++ below) = n.at? below := by
    rw [Node.at?_append, hn]
    rfl
  have hsame := h.files _ hlog
  rw [hat hn, hat hm] at hsame
  simp only [Node.HasFile, hsame]

/-- An entry of a directory is still there, and the walk finds the same logs in it. -/
theorem entry (h : SameLogs disk later) (hdisk : disk.Plain) (hlater : later.Plain)
    {dir : Place} {name : Name} {n : Node} (hn : disk.root.at? (dir ++ [name]) = some n) :
    ∃ m, later.root.at? (dir ++ [name]) = some m ∧ m.isDir = n.isDir ∧
      ∀ depth (p : Path), logsAt depth (p.child name) m = logsAt depth (p.child name) n := by
  obtain ⟨S, hu⟩ := h.updates
  obtain ⟨m, hm, hkind⟩ := hu.kinds _ _ hn
  refine ⟨m, hm, ?_, fun depth p => ?_⟩
  · cases m <;> cases n <;> simp only [Node.kind, reduceCtorEq] at hkind <;> rfl
  · refine logsAt_congr (Node.isPlain_at? hlater.tree hm) (Node.isPlain_at? hdisk.tree hn) [name]
      (by simpa using hdisk.entryName_of_at? hn) (by simp)
      (fun below hlog => h.files_below hn hm below ?_) depth p
    simpa [isLogPlace, List.getLast?_append, List.getLast?_cons] using hlog

/-- The walk finds the same logs in a directory. -/
theorem logsAt_dir (h : SameLogs disk later) (hdisk : disk.Plain) (hlater : later.Plain)
    {place : Place} {m n : Node} (hn : disk.root.at? place = some n) (hdir : n.isDir)
    (hm : later.root.at? place = some m) (hdir' : m.isDir) (depth : Nat) (p : Path) :
    logsAt depth p m = logsAt depth p n := by
  refine logsAt_congr (Node.isPlain_at? hlater.tree hm) (Node.isPlain_at? hdisk.tree hn) []
    (by simp) (fun _ => ⟨hdir', hdir⟩)
    (fun below hlog => h.files_below hn hm below ?_) depth p
  cases below with
  | nil => cases hlog
  | cons name below => simpa [isLogPlace, List.getLast?_append, List.getLast?_cons] using hlog

/-- A log in a directory is still the file that it was, under its path. -/
theorem exists_file (h : SameLogs disk later) (hdisk : disk.Plain) (hlater : later.Plain) {p : Path}
    {place : Place} (hp : disk.LeadsTo p place) {n : Node} (hn : disk.root.at? place = some n)
    (hdir : n.isDir) {depth : Nat} {file : LogFile} (hfile : file ∈ logsAt depth p n) :
    ∃ q born bytes access, isLogPlace q ∧
      disk.locate true file.path = .ok (.found q) ∧ later.locate true file.path = .ok (.found q) ∧
      disk.root.at? q = some (.file born bytes access) ∧
      later.root.at? q = some (.file born bytes access) := by
  obtain ⟨below, hpath, -, ⟨born, bytes, access, hat⟩, hne, hlog⟩ :=
    exists_of_mem_logsAt (Node.isPlain_at? hdisk.tree hn) hdir hfile
  obtain ⟨S, hu⟩ := h.updates
  have hplace : isLogPlace (place ++ below) := by rwa [isLogPlace_append place hne]
  have hold : disk.root.at? (place ++ below) = some (.file born bytes access) := by
    rw [Node.at?_append, hn]
    exact hat
  have hnew := (h.files _ hplace born bytes access).mpr hold
  refine ⟨place ++ below, born, bytes, access, hplace, ?_, ?_, hold, hnew⟩
  · rw [hpath, hp.locate_below hdisk hne hold]
  · rw [hpath, (hp.keeps hdisk hlater hu).locate_below hlater hne hnew]

/-- It is opened as before. -/
theorem openRead (h : SameLogs disk later) (hdisk : disk.Plain) (hlater : later.Plain) {p : Path}
    {place : Place} (hp : disk.LeadsTo p place) {n : Node} (hn : disk.root.at? place = some n)
    (hdir : n.isDir) {depth : Nat} {file : LogFile} (hfile : file ∈ logsAt depth p n) :
    later.openRead file.path = disk.openRead file.path := by
  obtain ⟨q, born, bytes, access, -, hloc, hloc', hold, hnew⟩ :=
    h.exists_file hdisk hlater hp hn hdir hfile
  unfold Disk.openRead
  rw [hloc, hloc']
  simp only [hold, hnew]

end SameLogs

end Disk

namespace Walk

section Parts

variable {σ : Type} (v : Visitor σ)

/-- Takes in the log at a path, if there is one. -/
def visitAt (p : Path) (s : σ) : Work σ := do
  match ← logAt? p with
  | some file => v.visit file s
  | none => return s

/-- Walks through what lies in a directory, if it is one. -/
def enter : Nat → Path → Bool → σ → Work σ
  | depth + 1, p, true, s => do
    match ← Work.ask (.list p) with
    | .error _ => return s
    | .ok es => entries v (descend v depth) p (sortEntries es) s
  | _, _, _, s => pure s

theorem enter_false (depth : Nat) (p : Path) : enter v depth p false = pure := by
  cases depth <;> rfl

theorem descend_eq (depth : Nat) (p : Path) (isDir : Bool) (s : σ) :
    descend v depth p isDir s = visitAt v p s >>= enter v depth p isDir := by
  unfold descend visitAt
  rw [bind_assoc]
  congr 1
  funext found
  cases found <;> cases isDir <;> cases depth <;> rfl

/-- Nothing more happens once a walk is over. -/
theorem entries_over {v : Visitor σ} {s : σ} (hover : v.isOver s = true)
    (below : Path → Bool → σ → Work σ) (dir : Path) (names : List (Name × Bool)) :
    entries v below dir names s = pure s := by
  cases names with
  | nil => rfl
  | cons entry names => simp [entries, hover]

theorem enter_over {v : Visitor σ} {s : σ} (hover : v.isOver s = true) (depth : Nat) (p : Path)
    (isDir : Bool) (disk : Disk) : ((enter v depth p isDir s).run disk).2 = s := by
  cases isDir with
  | false => cases depth <;> rfl
  | true =>
    cases depth with
    | zero => rfl
    | succ depth =>
      unfold enter
      rw [Work.run_bind, Work.run_list]
      cases disk.list p with
      | error e => rfl
      | ok es => simp only [entries_over hover, Work.run_pure]

end Parts

/-! ### The calls of a walk -/

section Calls

variable {σ : Type}

/-- The calls of visits are of a kind, and so is what a walk asks of paths of a kind. -/
structure Keeps (v : Visitor σ) (ok : Disk → Prop) (P : Call → Prop) (within : Path → Prop)
    (inv : σ → Prop) : Prop where
  isDir : ∀ {p}, within p → P (.isDir p)
  isFile : ∀ {p}, within p → P (.isFile p)
  list : ∀ {p}, within p → P (.list p)
  below : ∀ {disk p es e}, within p → ok disk → disk.list p = .ok es → e ∈ es →
    within (p.child e.1)
  visit : ∀ {file s}, within file.path → inv s → (v.visit file s).Stays ok P inv

variable {v : Visitor σ} {ok : Disk → Prop} {P : Call → Prop} {within : Path → Prop}
  {inv : σ → Prop}

theorem visitAt_stays (hv : Keeps v ok P within inv) {p : Path} (hp : within p) {s : σ}
    (hs : inv s) : (visitAt v p s).Stays ok P inv := by
  unfold visitAt logAt?
  cases NodeLog.nodeOfName? (p.fileName?.getD p.bytes) with
  | none => exact .pure hs
  | some node =>
    rw [bind_assoc]
    refine .bind (Q := fun _ => True) (.ask (hv.isFile hp) fun _ _ => trivial) fun isFile _ => ?_
    cases isFile with
    | false => exact .pure hs
    | true =>
      have hfile : within (LogFile.mk p node).path := hp
      exact hv.visit hfile hs

theorem entries_stays {below : Path → Bool → σ → Work σ} {dir : Path} (es : List (Name × Bool))
    (hbelow : ∀ e ∈ es, ∀ isDir s, inv s → (below (dir.child e.1) isDir s).Stays ok P inv) {s : σ}
    (hs : inv s) : (entries v below dir es s).Stays ok P inv := by
  induction es generalizing s with
  | nil => exact .pure hs
  | cons e es ih =>
    unfold entries
    split
    · exact .pure hs
    · exact .bind (hbelow e List.mem_cons_self _ s hs) fun s' hs' =>
        ih (fun e he => hbelow e (List.mem_cons_of_mem _ he)) hs'

theorem descend_stays (hv : Keeps v ok P within inv) (depth : Nat) {p : Path} (hp : within p)
    (isDir : Bool) {s : σ} (hs : inv s) : (descend v depth p isDir s).Stays ok P inv := by
  induction depth generalizing p isDir s with
  | zero =>
    rw [descend_eq]
    exact .bind (visitAt_stays hv hp hs) fun s' hs' => by cases isDir <;> exact .pure hs'
  | succ depth ih =>
    rw [descend_eq]
    refine .bind (visitAt_stays hv hp hs) fun s' hs' => ?_
    cases isDir with
    | false => exact .pure hs'
    | true =>
      refine .bind (Q := fun r => ∀ es, r = Except.ok es → ∀ e ∈ es, within (p.child e.1))
        (.ask (hv.list hp) fun disk hdisk es hlist e => hv.below hp hdisk hlist) fun r hr => ?_
      cases r with
      | error e => exact .pure hs'
      | ok es =>
        refine entries_stays _ (fun e he isDir s hs => ?_) hs'
        exact ih (hr es rfl e ((perm_sortBy _ es).mem_iff.mp he)) isDir hs

theorem walk_stays (hv : Keeps v ok P within inv) (reach : Nat) {start : Path}
    (hstart : within start) {s : σ} (hs : inv s) : (walk v reach start s).Stays ok P inv :=
  .bind (Q := fun _ => True) (.ask (hv.isDir hstart) fun _ _ => trivial) fun isDir _ =>
    descend_stays hv reach hstart isDir hs

end Calls

/-! ### What a walk carries -/

section Carries

variable {σ ι : Type}

/-- What holds of states on disks is carried by work of a kind: work of the kind is put together
as walks are, and visits are of it. Where a walk is over, the rest of it does nothing. -/
structure Carries (v : Visitor σ) (inv : ι → Disk → σ → Prop) (M : ι → Disk → Work σ → Prop) :
    Prop where
  pure : ∀ {i disk s}, inv i disk s → M i disk (pure s)
  bind : ∀ {i disk w f}, M i disk w → (∀ j disk s, inv j disk s → M j disk (f s)) →
    (∀ disk s, v.isOver s = true → ((f s).run disk).2 = s) → M i disk (w >>= f)
  look : ∀ {i disk c f}, c.isLook → M i disk (f (disk.answer c).2) → M i disk (Work.ask c >>= f)
  visit : ∀ {i disk s file}, inv i disk s → LogFile.ofPath? file.path = some file →
    disk.isFile file.path → M i disk (v.visit file s)

namespace Carries

variable {v : Visitor σ} {inv : ι → Disk → σ → Prop} {M : ι → Disk → Work σ → Prop}
  (h : Carries v inv M)
include h

theorem visitAt {i : ι} {disk : Disk} {s : σ} (hs : inv i disk s) (p : Path) :
    M i disk (Walk.visitAt v p s) := by
  unfold Walk.visitAt logAt?
  cases hname : NodeLog.nodeOfName? (p.fileName?.getD p.bytes) with
  | none => exact h.pure hs
  | some node =>
    rw [bind_assoc]
    refine h.look rfl ?_
    have hanswer : (disk.answer (.isFile p)).2 = disk.isFile p := rfl
    rw [hanswer]
    cases hfile : disk.isFile p with
    | false => exact h.pure hs
    | true =>
      have hvisit := @h.visit i disk s ⟨p, node⟩ hs (by simp [LogFile.ofPath?, hname]) hfile
      exact hvisit

theorem entries {below : Path → Bool → σ → Work σ}
    (hbelow : ∀ p isDir i disk s, inv i disk s → M i disk (below p isDir s)) (dir : Path)
    (names : List (Name × Bool)) {i : ι} {disk : Disk} {s : σ} (hs : inv i disk s) :
    M i disk (Walk.entries v below dir names s) := by
  induction names generalizing i disk s with
  | nil => exact h.pure hs
  | cons entry names ih =>
    unfold Walk.entries
    split
    · exact h.pure hs
    · refine h.bind (hbelow _ _ _ _ _ hs) (fun _ _ _ hs => ih hs) fun disk s hover => ?_
      rw [entries_over hover, Work.run_pure]

theorem descend (depth : Nat) (p : Path) (isDir : Bool) {i : ι} {disk : Disk} {s : σ}
    (hs : inv i disk s) : M i disk (Walk.descend v depth p isDir s) := by
  induction depth generalizing p isDir i disk s with
  | zero =>
    rw [descend_eq]
    refine h.bind (h.visitAt hs p) (fun _ _ _ hs => ?_) fun disk s hover =>
      enter_over hover 0 p isDir disk
    cases isDir <;> exact h.pure hs
  | succ depth ih =>
    rw [descend_eq]
    refine h.bind (h.visitAt hs p) (fun _ disk _ hs => ?_) fun disk s hover =>
      enter_over hover (depth + 1) p isDir disk
    cases isDir with
    | false => exact h.pure hs
    | true =>
      refine h.look rfl ?_
      dsimp only [Disk.answer]
      cases disk.list p with
      | error e => exact h.pure hs
      | ok names => exact h.entries (fun p isDir _ _ _ => ih p isDir) p _ hs

theorem walk (reach : Nat) (start : Path) {i : ι} {disk : Disk} {s : σ} (hs : inv i disk s) :
    M i disk (Walk.walk v reach start s) :=
  h.look rfl (h.descend reach start _ hs)

end Carries

end Carries

/-! ### The logs that a walk visits -/

section Visits

variable {σ : Type} {v : Visitor σ}

/-- Takes logs in one after another, until it is over. -/
def visitAll (v : Visitor σ) : List LogFile → σ → Work σ
  | [], s => pure s
  | file :: files, s => if v.isOver s then pure s else v.visit file s >>= visitAll v files

theorem visitAll_over {s : σ} (hover : v.isOver s = true) (files : List LogFile) :
    visitAll v files s = pure s := by
  cases files with
  | nil => rfl
  | cons file files => simp [visitAll, hover]

theorem visitAll_append (first second : List LogFile) (s : σ) :
    visitAll v (first ++ second) s = visitAll v first s >>= visitAll v second := by
  induction first generalizing s with
  | nil => rfl
  | cons file first ih =>
    rw [List.cons_append, visitAll, visitAll]
    cases hover : v.isOver s with
    | true => exact (visitAll_over hover second).symm
    | false =>
      simp only [Bool.false_eq_true, if_false, bind_assoc]
      congr 1
      funext s'
      exact ih s'

/-- Visits keep to a bound on disks and states: the disks are plain, and no log on them
comes or goes. -/
structure Steady (v : Visitor σ) (inv : Disk → σ → Prop) : Prop where
  plain : ∀ disk s, inv disk s → disk.Plain
  visit : ∀ disk s file, inv disk s → v.isOver s = false →
    inv ((v.visit file s).run disk).1 ((v.visit file s).run disk).2 ∧
      Disk.SameFiles (fun place => isLogPlace place) disk ((v.visit file s).run disk).1

variable {inv : Disk → σ → Prop}

theorem Steady.visitAll (hv : Steady v inv) (files : List LogFile) {disk : Disk} {s : σ}
    (h : inv disk s) :
    inv ((visitAll v files s).run disk).1 ((visitAll v files s).run disk).2 ∧
      disk.SameLogs ((visitAll v files s).run disk).1 := by
  induction files generalizing disk s with
  | nil => exact ⟨h, .refl disk⟩
  | cons file files ih =>
    unfold Walk.visitAll
    cases hover : v.isOver s with
    | true => exact ⟨h, .refl disk⟩
    | false =>
      obtain ⟨hinv, hfiles⟩ := hv.visit disk s file h hover
      obtain ⟨hlast, hsame⟩ := ih hinv
      simp only [Bool.false_eq_true, if_false, Work.run_bind]
      have hu := (v.visit file s).run_updates (hv.plain disk s h).cwd
      exact ⟨hlast, Disk.SameLogs.trans ⟨hfiles, _, hu⟩ hsame⟩

theorem node_eq {disk : Disk} {p : Path} {place : Place} {n : Node}
    (hloc : disk.locate true p = .ok (.found place)) (hn : disk.root.at? place = some n) :
    disk.node p = .ok n := by
  simp [Disk.node, hloc, hn]

/-- At a path there is the log that its name says, if a file is there. -/
theorem visitAt_alike {disk : Disk} {p : Path} {n : Node} (hn : disk.node p = .ok n) {s : σ}
    (hgoing : v.isOver s = false) :
    Work.Alike disk (visitAt v p s)
      (visitAll v (if n.isFile then (LogFile.ofPath? p).toList else []) s) := by
  have hfile : disk.isFile p = n.isFile := by simp [Disk.isFile, hn]
  unfold visitAt logAt? LogFile.ofPath?
  cases NodeLog.nodeOfName? (p.fileName?.getD p.bytes) with
  | none =>
    cases n.isFile <;> exact .refl _ _
  | some node =>
    rw [bind_assoc]
    refine .look rfl ?_
    have hanswer : (disk.answer (.isFile p)).2 = n.isFile := hfile
    rw [hanswer]
    cases n.isFile with
    | false => exact .refl _ _
    | true =>
      have hone : visitAll v [⟨p, node⟩] s = v.visit ⟨p, node⟩ s := by simp [visitAll, hgoing]
      simp only [if_true, pure_bind, Option.map_some, Option.toList_some, hone]
      exact .refl _ _

theorem entries_alike (hv : Steady v inv) {depth : Nat}
    (hdescend : ∀ (disk : Disk) (s : σ) (p : Path) (place : Place) (n : Node), inv disk s →
      v.isOver s = false → disk.locate true p = .ok (.found place) →
      disk.root.at? place = some n →
      Work.Alike disk (descend v depth p n.isDir s) (visitAll v (logsAt depth p n) s))
    {first disk : Disk} {p : Path} {dir : Place} (hfirst : first.Plain)
    (hp : first.LeadsTo p dir) (es : List (Name × Node))
    (hes : ∀ e ∈ es, first.root.at? (dir ++ [e.1]) = some e.2) (hsame : first.SameLogs disk)
    {s : σ} (hinv : inv disk s) :
    Work.Alike disk (entries v (descend v depth) p (es.map fun e => (e.1, e.2.isDir)) s)
      (visitAll v (es.flatMap fun e => logsAt depth (p.child e.1) e.2) s) := by
  induction es generalizing disk s with
  | nil => exact .refl _ _
  | cons e es ih =>
    cases hover : v.isOver s with
    | true =>
      rw [entries_over hover, visitAll_over hover]
      exact .refl _ _
    | false =>
      have hplain := hv.plain disk s hinv
      obtain ⟨S, hu⟩ := hsame.updates
      obtain ⟨n, hn, hdir, hlogs⟩ := hsame.entry hfirst hplain (hes e List.mem_cons_self)
      have hloc := (hp.keeps hfirst hplain hu).locate_child hplain
        (hfirst.entryName_of_at? (hes e List.mem_cons_self)) true
      rw [hn, Option.isSome_some, if_pos rfl] at hloc
      have hstep := hdescend disk s _ _ n hinv hover hloc hn
      rw [hdir, hlogs depth p] at hstep
      obtain ⟨hinv', hsame'⟩ := hv.visitAll (logsAt depth (p.child e.1) e.2) hinv
      rw [List.map_cons, List.flatMap_cons, visitAll_append, entries, hover]
      exact hstep.bind (ih (fun e he => hes e (List.mem_cons_of_mem _ he)) (hsame.trans hsame') hinv')

/-- A walk visits the logs below its node, whatever else changes meanwhile. -/
theorem descend_alike (hv : Steady v inv) (depth : Nat) (disk : Disk) (s : σ) (p : Path)
    (place : Place) (n : Node) (hinv : inv disk s) (hgoing : v.isOver s = false)
    (hloc : disk.locate true p = .ok (.found place)) (hn : disk.root.at? place = some n) :
    Work.Alike disk (descend v depth p n.isDir s) (visitAll v (logsAt depth p n) s) := by
  induction depth generalizing disk s p place n with
  | zero =>
    rw [descend_eq]
    have hvisit := visitAt_alike (v := v) (node_eq hloc hn) hgoing
    cases n with
    | link target => exact absurd hn (Node.not_link (hv.plain disk s hinv).tree _ _)
    | dir es => exact hvisit.bind (.refl _ _)
    | file born bytes access =>
      rw [logsAt_file, show (Node.file born bytes access).isDir = false from rfl, enter_false,
        bind_pure]
      exact hvisit
    | device kind => exact hvisit.bind (.refl _ _)
  | succ depth ih =>
    rw [descend_eq]
    have hvisit := visitAt_alike (v := v) (node_eq hloc hn) hgoing
    cases n with
    | link target => exact absurd hn (Node.not_link (hv.plain disk s hinv).tree _ _)
    | file born bytes access =>
      rw [logsAt_file, show (Node.file born bytes access).isDir = false from rfl, enter_false,
        bind_pure]
      exact hvisit
    | device kind => exact hvisit.bind (.refl _ _)
    | dir es =>
      have hplain := hv.plain disk s hinv
      have hlist : disk.list p = .ok (es.map fun e => (e.1, e.2.isDir)) := by
        simp [Disk.list, node_eq hloc hn]
      have hsort : sortEntries (es.map fun e => (e.1, e.2.isDir)) =
          (byName es).map fun e => (e.1, e.2.isDir) :=
        sortBy_map (fun e : Name × Node => (e.1, e.2.isDir)) _ es
      rw [logsAt_dir]
      refine (hvisit.bind (g := enter v (depth + 1) p true) (.refl _ _)).trans ?_
      simp only [Node.isFile, Bool.false_eq_true, if_false, visitAll, pure_bind]
      refine .look rfl ?_
      have hanswer : (disk.answer (.list p)).2 = .ok (es.map fun e => (e.1, e.2.isDir)) := hlist
      rw [hanswer]
      dsimp only
      rw [hsort]
      exact entries_alike hv ih hplain (hplain.leadsTo hloc ⟨es, hn⟩) (byName es)
        (fun e he => (Node.at?_entry hplain.tree hn).mpr (mem_byName.mp he)) (.refl disk) hinv

/-- A walk that begins at a path on a plain disk visits the logs below it. -/
theorem walk_alike (hv : Steady v inv) (depth : Nat) {disk : Disk} {s : σ} {p : Path}
    {place : Place} {n : Node} (hinv : inv disk s) (hgoing : v.isOver s = false)
    (hloc : disk.locate true p = .ok (.found place)) (hn : disk.root.at? place = some n) :
    Work.Alike disk (walk v depth p s) (visitAll v (logsAt depth p n) s) := by
  have hdir : (disk.answer (.isDir p)).2 = n.isDir := by
    show disk.isDir p = _
    simp [Disk.isDir, node_eq hloc hn]
  refine .look rfl ?_
  rw [hdir]
  exact descend_alike hv depth disk s p place n hinv hgoing hloc hn

end Visits

/-- A walk that begins at an empty path finds nothing. -/
theorem walk_empty {disk : Disk} (hplain : disk.Plain) {p : Path} (hp : p.bytes = [])
    (v : Visitor σ) (depth : Nat) (s : σ) : Work.Alike disk (walk v depth p s) (pure s) := by
  have hdir : (disk.answer (.isDir p)).2 = false :=
    Bool.eq_false_iff.mpr fun hdir => (hplain.leadsTo_of_isDir hdir).1 hp
  have hlog : logAt? p = pure none := by
    obtain ⟨bytes⟩ := p
    subst hp
    rfl
  refine .look rfl ?_
  rw [hdir]
  cases depth <;> simp only [descend, hlog] <;> exact .refl _ _

/-- Logs that are kept one after another stand in the order opposite to that of their visits. -/
theorem visitAll_push (disk : Disk) (files s : List LogFile) :
    (visitAll (σ := List LogFile) ⟨fun file s => pure (file :: s), fun _ => false⟩ files s).run disk =
      (disk, files.reverse ++ s) := by
  induction files generalizing s with
  | nil => rfl
  | cons file files ih => simp [visitAll, ih]

/-- To find out whether there is a log takes one at most. -/
theorem visitAll_any (disk : Disk) (files : List LogFile) :
    (visitAll (σ := Bool) ⟨fun _ _ => pure true, id⟩ files false).run disk =
      (disk, !files.isEmpty) := by
  cases files <;> simp [visitAll, visitAll_over]

end Walk

/-- The logs that are found below a path on a plain disk. -/
theorem logFiles_run {disk : Disk} (hplain : disk.Plain) (depth : Nat) {p : Path} {place : Place}
    {n : Node} (hloc : disk.locate true p = .ok (.found place))
    (hn : disk.root.at? place = some n) :
    (logFiles depth p).run disk = (disk, logsAt depth p n) := by
  have hsteady : Walk.Steady (σ := List LogFile) ⟨fun file s => pure (file :: s), fun _ => false⟩
      fun later _ => later.Plain :=
    ⟨fun _ _ h => h, fun _ _ _ h _ => ⟨h, .refl _ _⟩⟩
  unfold logFiles
  rw [Work.run_bind, (Walk.walk_alike hsteady depth hplain rfl hloc hn).run, Walk.visitAll_push]
  simp

/-- None are found where there is neither a directory nor a file. -/
theorem logFiles_nowhere {disk : Disk} {p : Path} (hdir : disk.isDir p = false)
    (hfile : disk.isFile p = false) (depth : Nat) : (logFiles depth p).run disk = (disk, []) := by
  have hlog : (Walk.logAt? p).run disk = (disk, none) := by
    unfold Walk.logAt?
    cases NodeLog.nodeOfName? (p.fileName?.getD p.bytes) with
    | none => rfl
    | some node => simp [hfile]
  unfold logFiles Walk.walk
  cases depth <;> simp [Walk.descend, hdir, hlog]

/-- Every log that is found, wherever it is, is a file that no later disk with the same logs
has lost or changed. -/
theorem Disk.SameLogs.exists_found {disk later : Disk} (h : disk.SameLogs later)
    (hdisk : disk.Plain) (hlater : later.Plain) {depth : Nat} {p : Path} {file : LogFile}
    (hfile : file ∈ ((logFiles depth p).run disk).2) :
    ∃ q born bytes access, disk.locate true file.path = .ok (.found q) ∧
      later.locate true file.path = .ok (.found q) ∧
      disk.root.at? q = some (.file born bytes access) ∧
      later.root.at? q = some (.file born bytes access) := by
  have hnowhere (hdir : disk.isDir p = false) (hnone : disk.isFile p = false) :
      file ∉ ((logFiles depth p).run disk).2 := by
    rw [logFiles_nowhere hdir hnone]
    exact List.not_mem_nil
  cases hloc : disk.locate true p with
  | error e =>
    exact absurd hfile (hnowhere (by simp [isDir, node, hloc]) (by simp [isFile, node, hloc]))
  | ok spot =>
    cases spot with
    | free dir name =>
      exact absurd hfile (hnowhere (by simp [isDir, node, hloc]) (by simp [isFile, node, hloc]))
    | found q =>
      obtain ⟨n, hn, -⟩ := Node.locate_names hdisk.cwd hloc
      rw [logFiles_run hdisk depth hloc hn] at hfile
      cases n with
      | dir es =>
        obtain ⟨q, born, bytes, access, -, hfound⟩ :=
          h.exists_file hdisk hlater (hdisk.leadsTo hloc ⟨es, hn⟩) hn rfl hfile
        exact ⟨q, born, bytes, access, hfound⟩
      | file born bytes access =>
        rw [logsAt_file, Option.mem_toList] at hfile
        obtain ⟨dir, name, rfl, hname⟩ := hdisk.fileName?_of_found hloc (by simp [Node.HasDir, hn])
        have hlog : isLogPlace (dir ++ [name]) := by
          unfold LogFile.ofPath? at hfile
          rw [hname] at hfile
          obtain ⟨node, hnode, -⟩ := Option.map_eq_some_iff.mp hfile
          simpa [isLogPlace] using Option.isSome_of_eq_some hnode
        obtain ⟨S, hu⟩ := h.updates
        rw [LogFile.ofPath?_path hfile]
        exact ⟨_, born, bytes, access, hloc, hdisk.locate_keeps hlater hu hloc, hn,
          (h.files _ hlog _ _ _).mpr hn⟩
      | link target => exact absurd hn (Node.not_link hdisk.tree _ _)
      | device kind =>
        have hnone : (Node.device kind).filesBelow depth = [] := by cases depth <;> rfl
        rw [logsAt, hnone] at hfile
        cases hfile

/-- None are found below an empty path. -/
theorem logFiles_empty {disk : Disk} (hplain : disk.Plain) {p : Path} (hp : p.bytes = [])
    (depth : Nat) : (logFiles depth p).run disk = (disk, []) := by
  unfold logFiles
  rw [Work.run_bind, (Walk.walk_empty hplain hp _ depth []).run]
  rfl

end NodeLogs
