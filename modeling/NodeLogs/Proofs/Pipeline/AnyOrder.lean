import NodeLogs.Proofs.Discovery.Hints
import NodeLogs.Proofs.Pipeline.Bounds
import NodeLogs.Proofs.Pipeline.Run
import NodeLogs.Proofs.Text.Order
import NodeLogs.Proofs.Tree.Listing

/-! The order in which directories are listed does not show. A walk sorts what it has listed
before it goes on, and runs are sorted before logs are looked for. So the search for runs, the
search for logs and the whole processing have one end each, and the runs come in the order of
their names. -/

namespace NodeLogs

/-! ### Walks -/

namespace Walk

variable {σ : Type} {v : Visitor σ} {inv : σ → Prop}
  (hv : ∀ file s, inv s → (v.visit file s).Orderless inv)

theorem entries_orderless {below : Path → Bool → σ → Work σ}
    (hbelow : ∀ p isDir s, inv s → (below p isDir s).Orderless inv) (dir : Path)
    (es : List (Name × Bool)) {s : σ} (hs : inv s) : (entries v below dir es s).Orderless inv := by
  induction es generalizing s with
  | nil => exact .pure hs
  | cons e es ih =>
    unfold entries
    split
    · exact .pure hs
    · exact (hbelow _ _ s hs).bind fun s' hs' => ih hs'

include hv

theorem visitAt_orderless (p : Path) {s : σ} (hs : inv s) : (visitAt v p s).Orderless inv := by
  unfold visitAt logAt?
  cases NodeLog.nodeOfName? (p.fileName?.getD p.bytes) with
  | none => exact .pure hs
  | some node =>
    rw [bind_assoc]
    refine (Work.Orderless.ask (by simp)).bind fun isFile _ => ?_
    cases isFile with
    | false => exact .pure hs
    | true => exact hv _ s hs

theorem descend_orderless (depth : Nat) (p : Path) (isDir : Bool) {s : σ} (hs : inv s) :
    (descend v depth p isDir s).Orderless inv := by
  induction depth generalizing p isDir s with
  | zero =>
    rw [descend_eq]
    exact (visitAt_orderless hv p hs).bind fun s' hs' => by cases isDir <;> exact .pure hs'
  | succ depth ih =>
    rw [descend_eq]
    refine (visitAt_orderless hv p hs).bind fun s' hs' => ?_
    cases isDir with
    | false => exact .pure hs'
    | true =>
      refine .list (fun listed => ?_) fun es es' hnodup hperm => ?_
      · cases listed with
        | error e => exact .pure hs'
        | ok es => exact entries_orderless (fun p isDir s => ih p isDir) p _ hs'
      · dsimp only
        rw [show sortEntries es' = sortEntries es from byName_perm hperm hnodup]

theorem walk_orderless (reach : Nat) (start : Path) {s : σ} (hs : inv s) :
    (walk v reach start s).Orderless inv :=
  (Work.Orderless.ask (by simp)).bind fun isDir _ => descend_orderless hv reach start isDir hs

end Walk

theorem looksLikeRun_orderless (reach : Nat) (p : Path) :
    (looksLikeRun reach p).Orderless fun _ => True :=
  Walk.walk_orderless (fun _ _ _ => .pure trivial) reach p trivial

theorem logFiles_orderless (reach : Nat) (start : Path) :
    (logFiles reach start).Orderless fun _ => True :=
  .bind (Q := fun _ => True) (Walk.walk_orderless (fun _ _ _ => .pure trivial) reach start trivial)
    fun _ _ => .pure trivial

/-! ### The search for runs -/

namespace Discovery

theorem subdirectories_orderless (root : Path) (es : List (Name × Bool)) :
    (subdirectories root es).Orderless fun _ => True := by
  induction es with
  | nil => exact .pure trivial
  | cons e es ih =>
    exact (Work.Orderless.ask (by simp)).bind fun isDir _ => ih.bind fun runs _ => .pure trivial

theorem withLogs_orderless (reach : Nat) (runs : List Run) :
    (withLogs reach runs).Orderless fun _ => True := by
  induction runs with
  | nil => exact .pure trivial
  | cons run runs ih =>
    exact (looksLikeRun_orderless reach run.path).bind fun _ _ => ih.bind fun _ _ => .pure trivial

theorem detect_orderless (reach : Nat) (root : Path) (runs : List Run) :
    (detect reach root runs).Orderless fun _ => True := by
  refine (withLogs_orderless reach runs).bind fun found _ => ?_
  cases found with
  | cons run found => exact .pure trivial
  | nil => exact (looksLikeRun_orderless reach root).bind fun _ _ => .pure trivial

theorem resolveListed_orderless (reach : Nat) (hints : Hints) (root : Path)
    (listed : Except OsError (List (Name × Bool))) :
    (resolveListed reach hints root listed).Orderless fun _ => True := by
  cases listed with
  | error e => exact .pure trivial
  | ok es =>
    refine (subdirectories_orderless root es).bind fun runs _ => ?_
    cases hints.stem? with
    | none => exact (detect_orderless reach root _).bind fun _ _ => .pure trivial
    | some stem =>
      refine (withLogs_orderless reach _).bind fun found _ => ?_
      cases found with
      | cons run found => exact .pure trivial
      | nil => exact (detect_orderless reach root _).bind fun _ _ => .pure trivial

theorem candidates_perm {disk : Disk} (hproper : disk.root.isProper) {root : Path}
    {held es : List (Name × Bool)} (hlist : disk.list root = .ok held) (hperm : es.Perm held) :
    candidates disk root es = candidates disk root held := by
  obtain ⟨hnodup, hnames⟩ := Disk.list_names hproper hlist
  have hnames {e : Name × Bool} (he : e ∈ held) : StepName e.1 :=
    (of_decide_eq_true (hnames e he)).toStepName
  have hne := disk.ne_nil_of_list hlist
  rw [candidates_eq disk hne fun e he => hnames he,
    candidates_eq disk hne fun e he => hnames (hperm.mem_iff.mp he), byName_perm (hperm.filter _)]
  exact hnodup.sublist (List.filter_sublist.map Prod.fst)

/-- Where names are proper the search comes to the same runs, in whatever order it is given
the entries of the root. -/
theorem resolve_settled {disk : Disk} (hproper : disk.root.isProper) (reach : Nat) (hints : Hints)
    (root : Path) : (resolve reach hints root).Settled disk := by
  rw [resolve_eq]
  refine .list (fun listed => ?_) fun held es hlist hperm => ?_
  · exact (resolveListed_orderless reach hints root listed disk
      (Node.namesOnce_of_isProper hproper)).2
  · rw [resolveListed_run, resolveListed_run, candidates_perm hproper hlist hperm]

end Discovery

theorem discover_settled {disk : Disk} (hproper : disk.root.isProper) (reach : Nat) (hints : Hints)
    (root : Path) : (discover reach hints root).Settled disk := by
  have hask := (Work.Orderless.ask (c := .isDir root) (by simp) disk
    (Node.namesOnce_of_isProper hproper)).2
  refine hask.bind ?_
  rw [Work.run_isDir]
  cases disk.isDir root with
  | false => exact .pure _ _
  | true =>
    refine (Discovery.resolve_settled hproper reach hints root).bind ?_
    generalize (Discovery.resolve reach hints root).run disk = r
    obtain ⟨later, e | ⟨_ | _, _⟩⟩ := r <;> exact .pure _ _

/-! ### Runs -/

/-- Apart from its walk a run lists nothing. -/
def Bounds.noListing (dir : Path) : Bounds dir where
  ok _ := True
  call c := ∀ p, c ≠ .list p
  own _ := True
  logs _ := True
  within _ := False
  keeps _ _ := trivial
  dirs := (Work.makeAllDirs_onlyDirs dir).mono (by rintro c ⟨q, rfl | rfl⟩ p <;> simp) fun _ => id
  create _ := by simp
  created _ _ := trivial
  write _ _ := by simp
  isDir h := h.elim
  isFile h := h.elim
  list h := h.elim
  below h := h.elim
  openRead h := h.elim
  opened h := h.elim
  read _ _ := by simp

namespace Pipeline

variable (pl : Pipeline)

theorem takeLog_orderless {p : Progress} {dir : Path} (selection : Selection) (file : LogFile)
    (hp : p.writer.KeepsTo dir fun _ => True) :
    (selection.takeLog file p).Orderless fun p => p.writer.KeepsTo dir fun _ => True := by
  refine (Work.Orderless.ask (by simp)).bind fun r _ => ?_
  cases r with
  | error e => exact .pure hp
  | ok r =>
    exact .of_stays ((Bounds.noListing dir).admits_takeLines hp selection file _ trivial [])
      fun _ => id

theorem filterRun_orderless (run : Run) : (pl.filterRun run).Orderless fun _ => True := by
  let b := Bounds.noListing (run.outputDir pl.outSubdir)
  have hlists {α : Type} {Q : α → Prop} {w : Work α} (hw : b.Admits Q w) : w.Orderless Q :=
    .of_stays hw fun _ => id
  refine (hlists (b.admits_create run.name)).bind fun r hr => ?_
  cases r with
  | error e => exact .pure trivial
  | ok writer =>
    have hstart : ({ writer } : Progress).writer.KeepsTo (run.outputDir pl.outSubdir) b.own := hr
    refine .bind (Q := fun p : Progress => p.writer.KeepsTo (run.outputDir pl.outSubdir) b.own)
      (Walk.walk_orderless (fun file p hp => takeLog_orderless pl.selection file hp) pl.reach
        run.path hstart) fun p hp => ?_
    cases p.failure with
    | some e =>
      exact (hlists (b.admits_own (Writer.release_own hp) fun _ => id)).bind fun _ _ => .pure trivial
    | none =>
      exact (hlists (b.admits_own (Writer.finish_own hp) fun _ => id)).bind fun _ _ => .pure trivial

theorem filterRuns_orderless (runs : List Run) : (pl.filterRuns runs).Orderless fun _ => True := by
  induction runs with
  | nil => exact .pure trivial
  | cons run runs ih =>
    exact (filterRun_orderless pl run).bind fun _ _ => ih.bind fun _ _ => .pure trivial

theorem process_settled {disk : Disk} (hproper : disk.root.isProper) (root : Path) :
    (pl.process root).Settled disk := by
  refine (discover_settled hproper pl.reach pl.hints root).bind ?_
  rw [(discover_looks disk pl.reach pl.hints root).run.2]
  cases ((discover pl.reach pl.hints root).run disk).2 with
  | error e => exact .pure _ _
  | ok found =>
    refine .bind ((filterRuns_orderless pl found.1) disk (Node.namesOnce_of_isProper hproper)).2 ?_
    exact .pure _ _

end Pipeline

/-! ### The order of runs -/

theorem Run.name_child {p : Path} {name : Name} (hname : StepName name) :
    (Run.ofPath (p.child name)).name = Utf8.decodeLossy name := by
  rw [Run.ofPath, Path.fileName?_child hname]
  rfl

/-- Names that are texts are in order as texts if they are in order as bytes. -/
theorem Run.name_lt {p : Path} {a b : Name} (ha : StepName a) (hb : StepName b)
    (ha' : (Utf8.decode? a).isSome) (hb' : (Utf8.decode? b).isSome) (hlt : a < b) :
    (Run.ofPath (p.child a)).name < (Run.ofPath (p.child b)).name := by
  have hencode {name : Name} (h : (Utf8.decode? name).isSome) :
      Utf8.encode (Utf8.decodeLossy name) = name := by
    unfold Utf8.decode? at h
    dsimp only at h
    split at h
    next hname => exact hname
    · cases h
  rw [Run.name_child ha, Run.name_child hb, ← Utf8.encode_lt_iff, hencode ha', hencode hb']
  exact hlt

namespace Discovery

/-- Runs are found in order: the root alone, or directories in it in the order of their names,
which is that of the names that are shown if these are texts. No run comes twice. -/
structure Ascending (root : Path) (found : List Run) : Prop where
  names : found = [Run.ofPath root] ∨ ∃ names : List Name,
    found = names.map (fun name => Run.ofPath (root.child name)) ∧ names.Pairwise (· < ·) ∧
      ((∀ name ∈ names, (Utf8.decode? name).isSome) → found.Pairwise fun a b => a.name < b.name)
  once : found.Nodup

theorem Ascending.ofNames {root : Path} {names : List Name} (hnames : ∀ name ∈ names, StepName name)
    (hsorted : names.Pairwise (· < ·)) :
    Ascending root (names.map fun name => Run.ofPath (root.child name)) := by
  refine ⟨.inr ⟨names, rfl, hsorted, fun htexts => ?_⟩, ?_⟩
  · refine List.pairwise_map.mpr (hsorted.imp_of_mem fun ha hb hlt => ?_)
    exact Run.name_lt (hnames _ ha) (hnames _ hb) (htexts _ ha) (htexts _ hb) hlt
  · refine List.pairwise_map.mpr (hsorted.imp_of_mem fun {a b} ha hb hlt heq => ?_)
    have hfile := congrArg (fun run : Run => run.path.fileName?) heq
    simp only [Run.ofPath, Path.fileName?_child (hnames a ha), Path.fileName?_child (hnames b hb),
      Option.some.injEq] at hfile
    exact List.lt_irrefl b (hfile ▸ hlt)

theorem choose_sub {root : Path} {runs : List Run} (hruns : ∀ run ∈ runs, run.path.isEntryOf root)
    (hints : Hints) (rootHasLogs : Bool) :
    (choose hints root runs rootHasLogs).1.Sublist [Run.ofPath root] ∨
      (choose hints root runs rootHasLogs).1.Sublist runs := by
  have hsub := (narrows_choose hruns hints rootHasLogs).sublist
  cases runs with
  | nil => exact .inl (hsub.trans (by cases rootHasLogs <;> simp [choose, Hints.stem?]))
  | cons run runs => exact .inr hsub

/-- What the search finds is in order, whatever the spelling of the root. -/
theorem resolve_ascending {disk : Disk} (hproper : disk.root.isProper) {reach : Nat} {hints : Hints}
    {root : Path} {found : List Run} {notices : List Notice}
    (h : ((resolve reach hints root).run disk).2 = .ok (found, notices)) : Ascending root found := by
  cases hlist : disk.list root with
  | error e =>
    rw [resolve_eq, Work.run_bind, Work.run_list, hlist] at h
    cases h
  | ok es =>
    obtain ⟨hnodup, hes⟩ := Disk.list_names hproper hlist
    have hnames {e : Name × Bool} (he : e ∈ es) : StepName e.1 :=
      (of_decide_eq_true (hes e he)).toStepName
    rw [resolve_run_of_list hlist, Except.ok.injEq] at h
    have hentry : ∀ run ∈ (candidates disk root es).filter fun run => disk.hasLogs reach run.path,
        run.path.isEntryOf root := fun run hrun =>
      isEntryOf_of_mem_candidates hproper hlist (List.mem_filter.mp hrun).1
    have hsub := choose_sub hentry hints (disk.hasLogs reach root)
    rw [h] at hsub
    rcases hsub with hsub | hsub
    · rcases List.sublist_singleton.mp hsub with rfl | rfl
      · exact ⟨.inr ⟨[], rfl, .nil, fun _ => .nil⟩, .nil⟩
      · exact ⟨.inl rfl, List.nodup_singleton _⟩
    · -- The directories in the root come in the order of their names, and some of them are left.
      rw [candidates_eq disk (disk.ne_nil_of_list hlist) fun e he => hnames he] at hsub
      obtain ⟨entries, hentries, rfl⟩ := List.sublist_map_iff.mp (hsub.trans List.filter_sublist)
      have hsorted := (byName_pairwise (hnodup.sublist (List.filter_sublist.map Prod.fst))).sublist
        hentries
      have hmem {e : Name × Bool} (he : e ∈ entries) : e ∈ es :=
        (List.mem_filter.mp (mem_byName.mp (hentries.subset he))).1
      have hascending : Ascending root ((entries.map Prod.fst).map fun name =>
          Run.ofPath (root.child name)) :=
        .ofNames (List.forall_mem_map.mpr fun e he => hnames (hmem he))
          (List.pairwise_map.mpr hsorted)
      rwa [List.map_map] at hascending

end Discovery

/-- In whatever order directories are listed, the same runs and the same logs are found, and the
processing tells the same and leaves the same tree. Runs are found in order. -/
theorem anyOrder_settled {disk : Disk} (hproper : disk.root.isProper) (pl : Pipeline) (root : Path) :
    (Discovery.resolve pl.reach pl.hints root).Settled disk ∧
      (logFiles pl.reach root).Settled disk ∧ (pl.process root).Settled disk ∧
      ∀ found notices, ((Discovery.resolve pl.reach pl.hints root).run disk).2 =
        .ok (found, notices) → Discovery.Ascending root found :=
  ⟨Discovery.resolve_settled hproper pl.reach pl.hints root,
    (logFiles_orderless pl.reach root disk (Node.namesOnce_of_isProper hproper)).2,
    pl.process_settled hproper root, fun _ _ => Discovery.resolve_ascending hproper⟩

/-! ### Entries that are held in another order -/

namespace Unsorted

open OneVote (name)

/-- A directory with two logs that is there under two names. Neither its entries nor those of the
root are held in the order of names. -/
def disk : Disk where
  root := .dir [(name "b", .dir [
      (name "stdout_1.log", .file 0 (name "2024-01-01T00:00:00Z [t] INFO a:1 Vote\n") .normal),
      (name "stderr_0.log", .file 1 (name "2024-01-01T00:00:01Z [t] INFO a:1 Vote\n") .normal)]),
    (name "a", .link (.ofString "b"))]
  cwd := []

end Unsorted

open Unsorted in
theorem anyOrder_settled_unsorted : disk.root.isProper ∧
    ((Discovery.resolve OneVote.pipeline.reach OneVote.pipeline.hints (.ofString ".")).Settled disk ∧
      (logFiles OneVote.pipeline.reach (.ofString ".")).Settled disk ∧
      (OneVote.pipeline.process (.ofString ".")).Settled disk ∧
      ∀ found notices, ((Discovery.resolve OneVote.pipeline.reach OneVote.pipeline.hints
        (.ofString ".")).run disk).2 = .ok (found, notices) →
          Discovery.Ascending (.ofString ".") found) ∧
    disk.MayAnswer (.list (.ofString "b"))
      (.ok [(OneVote.name "stderr_0.log", false), (OneVote.name "stdout_1.log", false)]) ∧
    ((Discovery.resolve OneVote.pipeline.reach {} (.ofString ".")).run disk).2.toOption.map
      (fun r => r.1.map Run.name) = some ["a".toList, "b".toList] := by
  have hproper : disk.root.isProper := by decide +kernel
  have hlist : disk.list (.ofString "b") =
      .ok [(OneVote.name "stdout_1.log", false), (OneVote.name "stderr_0.log", false)] := by
    decide +kernel
  exact ⟨hproper, anyOrder_settled hproper OneVote.pipeline (.ofString "."),
    ⟨_, hlist, .swap _ _ _⟩, by decide +kernel⟩

end NodeLogs
