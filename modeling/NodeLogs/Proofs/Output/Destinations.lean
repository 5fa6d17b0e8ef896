import NodeLogs.Proofs.Output.Sessions

/-! Where the records of a log go. The name of a log tells its node, and the node tells the names
of two files. Writers keep to these: whatever the disks that they find, each of their sinks goes
by the name of its outlet. So logs of one node share its sinks, logs of different nodes never
do, and no sink goes by the name of a log. -/

namespace NodeLogs

/-! ### What work comes to -/

/-- Whatever its disk, work comes to a result of a kind. -/
def Work.Returns {α : Type} (Q : α → Prop) (w : Work α) : Prop :=
  w.Stays (fun _ => True) (fun _ => True) Q

theorem Work.Stays.returns {α : Type} {P : Call → Prop} {Q : α → Prop} {w : Work α}
    (h : w.Stays (fun _ => True) P Q) : w.Returns Q :=
  Stays.mono h (fun _ _ => trivial) fun _ => id

theorem Work.Returns.run {α : Type} {Q : α → Prop} {w : Work α} (h : w.Returns Q) (disk : Disk) :
    Q (w.run disk).2 :=
  (Stays.run h (fun _ _ _ _ => trivial) trivial).1

/-! ### Sinks are opened under the names of their outlets -/

/-- A sink is opened under the path that is asked for. -/
theorem Sink.create_path (path : Path) :
    (Sink.create path).Returns (Yields (·.path = path)) := by
  unfold Sink.create
  refine .bind (Q := fun _ => True) (.ask trivial fun _ _ => trivial) fun r _ => ?_
  cases r with
  | ok handle => exact .pure rfl
  | error e => exact .pure trivial

theorem SinkPair.create_path (dir : Path) (name : Form → Text) :
    (SinkPair.create dir name).Returns
      (Yields fun pair => ∀ form, (pair.sink form).path = dir.join (Path.ofText (name form))) := by
  unfold SinkPair.create
  refine (Sink.create_path _).bind fun r hjson => ?_
  cases r with
  | error e => exact .pure trivial
  | ok json =>
    refine (Sink.create_path _).bind fun r hplain => ?_
    cases r with
    | error e =>
      exact json.release_writesTo.returns.bind fun _ _ => .pure trivial
    | ok plain =>
      apply Work.Stays.pure
      intro form
      cases form with
      | json => exact hjson
      | plain => exact hplain

namespace Writer

variable {dir : Path} {runName : Text} {w later : Writer}

/-- Open sinks go by the names of their outlets, and no node has two pairs of them. -/
structure Named (dir : Path) (w : Writer) : Prop where
  dir_eq : w.dir = dir
  path_eq : ∀ x sink, w.sinks x = some sink → sink.path = x.path dir
  once : (w.nodes.map Prod.fst).Nodup

theorem Named.same (h : w.Named dir) (hsame : w.Same later) : later.Named dir where
  dir_eq := hsame.dir.trans h.dir_eq
  path_eq x t ht := by
    obtain ⟨s, hs, hst⟩ := hsame.sinks.exists_same ht
    exact hst.1.trans (h.path_eq x s hs)
  once := hsame.keys ▸ h.once

theorem Named.setPair (h : w.Named dir) {n : Nat} {pair : SinkPair}
    (hpair : ∀ form, (pair.sink form).path = Outlet.path dir ⟨.node n, form⟩) :
    (w.setPair n pair).Named dir where
  dir_eq := h.dir_eq
  path_eq x sink hx := by
    rw [sinks_setPair, Sinks.setPair] at hx
    split at hx
    next hgroup =>
      cases hx
      obtain ⟨_, form⟩ := x
      cases hgroup
      exact hpair form
    next => exact h.path_eq x sink hx
  once := once_setPair h.once n pair

theorem Named.openPair (h : w.Named dir) (n : Nat) :
    (w.openPair n).Returns (Yields fun pair => (w.setPair n pair).Named dir) := by
  unfold Writer.openPair
  cases hpair : w.pair? n with
  | some pair =>
    apply Work.Stays.pure
    apply h.setPair
    intro form
    exact h.path_eq _ _ (sinks_of_pair? hpair form)
  | none =>
    refine (SinkPair.create_path w.dir (nodeFileName n)).mono (fun _ => id) fun r hr => ?_
    cases r with
    | error e => trivial
    | ok pair =>
      apply h.setPair
      rw [← h.dir_eq]
      exact hr

/-- The step: a write keeps to the names. -/
theorem Named.write (h : w.Named dir) (e : Entry) :
    (w.write e.record e.source e.node).Returns fun r => r.1.Named dir := by
  rw [write_eq]
  refine (h.openPair e.node).bind fun r hr => ?_
  cases r with
  | error failure => exact .pure h
  | ok pair =>
    exact (w.serve_writesTo e.node pair (e.text w.runName)).returns.mono (fun _ => id)
      fun _ hsame => Named.same hr hsame

theorem create_named (dir : Path) (runName : Text) :
    (create dir runName).Returns (Yields (·.Named dir)) := by
  unfold create
  refine (Work.makeAllDirs_onlyDirs dir).returns.bind fun made _ => ?_
  cases made with
  | error e => exact .pure trivial
  | ok u =>
    refine (SinkPair.create_path dir combinedFileName).bind fun r hr => ?_
    cases r with
    | error e => exact .pure trivial
    | ok combined =>
      refine .pure ⟨rfl, fun x sink hx => ?_, List.nodup_nil⟩
      obtain ⟨n | _, form⟩ := x
      · cases hx
      · cases hx
        exact hr form

/-! ### Writers in use -/

/-- A writer that was created for a directory and has been given entries since, on whatever disks
and with whatever success. -/
inductive InUse (dir : Path) (runName : Text) : Writer → Prop where
  | create {disk : Disk} {w : Writer} (hok : ((Writer.create dir runName).run disk).2 = .ok w) :
    InUse dir runName w
  | write {w : Writer} (h : InUse dir runName w) (disk : Disk) (e : Entry) :
    InUse dir runName ((w.write e.record e.source e.node).run disk).2.1

theorem InUse.session {s : Session} (h : InUse dir runName s.writer) (e : Entry) :
    InUse dir runName (s.write e).writer :=
  h.write s.disk e

/-- The run: however long it is in use, a writer keeps to the names. -/
theorem InUse.named (h : InUse dir runName w) : w.Named dir := by
  induction h with
  | @create disk w hok =>
    have hnew := (create_named dir runName).run disk
    rw [hok] at hnew
    exact hnew
  | write _ disk e ih => exact (ih.write e).run disk

/-- Serving a node changes the sinks of no other. -/
theorem serve_pair? (w : Writer) (n : Nat) (pair : SinkPair) (text : Form → Bytes) :
    (w.serve n pair text).Returns fun r =>
      r.1.dir = w.dir ∧ ∃ later, r.1.pair? = (w.setPair n later).pair? := by
  unfold serve
  refine (pair.putLines_writesTo _ _).returns.bind fun r _ => ?_
  obtain ⟨later, failure⟩ := r
  cases failure with
  | some failure => exact .pure ⟨rfl, later, rfl⟩
  | none =>
    exact (w.combined.putLines_writesTo _ _).returns.bind fun _ _ => .pure ⟨rfl, later, rfl⟩

/-- An entry that is written finds the sinks of its node open, or opens them, and the next one of
its node finds them open. To the other nodes it makes no difference. -/
theorem write_openPair (w : Writer) (e : Entry) :
    (w.write e.record e.source e.node).Returns fun r =>
      (r.2 = none → ∃ pair, r.1.pair? e.node = some pair ∧
        r.1.openPair e.node = pure (.ok pair)) ∧
      ∀ n, n ≠ e.node → r.1.openPair n = w.openPair n := by
  rw [write_eq]
  refine .bind (Q := fun _ => True) ?_ fun r _ => ?_
  · unfold openPair
    cases w.pair? e.node with
    | some pair => exact .pure trivial
    | none => exact (SinkPair.create_path w.dir _).mono (fun _ => id) fun _ _ => trivial
  · cases r with
    | error failure => exact .pure ⟨(nomatch ·), fun _ _ => rfl⟩
    | ok pair =>
      refine (w.serve_pair? e.node pair _).mono (fun _ => id) ?_
      rintro ⟨written, failure⟩ ⟨hdir, later, hpair⟩
      constructor
      · intro _
        have hsome : written.pair? e.node = some later := by
          rw [hpair, pair?_setPair]
          simp
        exact ⟨later, hsome, by simp only [openPair, hsome]⟩
      · intro n hn
        have hother : written.pair? n = w.pair? n := by
          rw [hpair, pair?_setPair]
          simp [hn]
        rw [openPair, openPair, hother, show written.dir = w.dir from hdir]

end Writer

theorem Session.Starts.inUse {dir : Path} {runName : Text} {s : Session}
    (hs : s.Starts dir runName) : s.writer.InUse dir runName := by
  cases hs with
  | create _ _ hok => exact .create hok

/-! ### From the names of logs to files -/

namespace Writer

variable {dir : Path} {w : Writer}

/-- Where the records of logs go, by the names of the logs. -/
structure Sorts (dir : Path) (w : Writer) : Prop where
  /-- Logs of one node share its sinks; those of different nodes have sinks that go by different
  names. -/
  path_eq_iff : ∀ a b m n p q, NodeLog.nodeOfText? a = some m → NodeLog.nodeOfText? b = some n →
    w.pair? m = some p → w.pair? n = some q →
    (NodeLog.nodeOfText? a = NodeLog.nodeOfText? b → p = q) ∧
    ∀ f g, (p.sink f).path = (q.sink g).path ↔
      NodeLog.nodeOfText? a = NodeLog.nodeOfText? b ∧ f = g
  /-- None of them goes by the name of a file of all nodes. -/
  path_ne : ∀ n p, w.pair? n = some p → ∀ f g, (p.sink f).path ≠ (w.combined.sink g).path
  /-- What is opened for a node goes by its names. -/
  opens : ∀ n disk, ∀ opened ∈ (w.openPair n).created disk,
    ∃ form, opened.1 = dir.join (Path.ofText (nodeFileName n form))
  /-- Once an entry of a node is written, the next one is served by the same sinks, and the other
  nodes are served as before. -/
  serves : ∀ disk (e : Entry), let result := (w.write e.record e.source e.node).run disk
    (result.2.2 = none → ∃ pair, result.2.1.openPair e.node = pure (.ok pair) ∧
      ∀ form, (pair.sink form).path = dir.join (Path.ofText (nodeFileName e.node form))) ∧
    ∀ n, n ≠ e.node → result.2.1.openPair n = w.openPair n

theorem Named.sorts (h : w.Named dir) : w.Sorts dir where
  path_eq_iff a b m n p q ha hb hp hq := by
    have hpath (k : Nat) (pair : SinkPair) (hpair : w.pair? k = some pair) (form : Form) :
        (pair.sink form).path = Outlet.path dir ⟨.node k, form⟩ :=
      h.path_eq ⟨.node k, form⟩ _ (sinks_of_pair? hpair form)
    rw [ha, hb, Option.some.injEq]
    constructor
    · rintro rfl
      exact Option.some.inj (hp.symm.trans hq)
    · intro f g
      rw [hpath m p hp, hpath n q hq]
      constructor
      · intro hpaths
        cases Outlet.path_injective hpaths
        exact ⟨rfl, rfl⟩
      · rintro ⟨rfl, rfl⟩
        rfl
  path_ne n p hp f g := by
    rw [h.path_eq ⟨.node n, f⟩ _ (sinks_of_pair? hp f), h.path_eq ⟨.all, g⟩ _ rfl]
    intro hpaths
    cases Outlet.path_injective hpaths
  opens n disk opened hopened := by
    obtain ⟨-, form, hform⟩ := openPair_created_path opened hopened
    exact ⟨form, by rw [hform, h.dir_eq, Outlet.path_node]⟩
  serves disk e := by
    obtain ⟨hnext, hothers⟩ := (w.write_openPair e).run disk
    refine ⟨fun hnone => ?_, hothers⟩
    obtain ⟨pair, hpair, hopen⟩ := hnext hnone
    refine ⟨pair, hopen, fun form => ?_⟩
    exact ((h.write e).run disk).path_eq ⟨.node e.node, form⟩ _ (sinks_of_pair? hpair form)

end Writer

namespace Outlet

theorem components_fileName (x : Outlet) : (Path.ofText x.fileName).components = [.normal x.name] := by
  have hpath : Path.ofText x.fileName = ⟨x.name⟩ := rfl
  have hstep : StepName x.name := x.stepName
  have hpieces : (⟨x.name⟩ : Path).pieces = [x.name] := splitAll_of_not_mem hstep.no_slash
  rw [hpath, Path.components, Path.isAbsolute_name hstep, hpieces]
  simp [Path.componentOf?, hstep.ne_nil, hstep.ne_dot, hstep.ne_dots]

/-- Names of output files tell their outlets apart, are single steps, and are no names of logs.
Where no links are, so are the files; and in whatever way a writer is used, it sorts records into
them by the names of their logs. -/
theorem destinations :
    (∀ m n form, nodeFileName m form = nodeFileName n form → m = n) ∧
    (∀ x y : Outlet, x.fileName = y.fileName → x = y) ∧
    (∀ x : Outlet, (Path.ofText x.fileName).components = [.normal x.name] ∧
      NodeLog.nodeOfText? x.fileName = none ∧ NodeLog.nodeOfName? x.name = none) ∧
    (∀ a n, NodeLog.nodeOfText? a = some n → ∀ form, EntryName (name ⟨.node n, form⟩)) ∧
    (∀ (disk disk' : Disk) (dir : Path) (x y : Outlet) (h h' : Handle), disk.Plain → disk'.Plain →
      (disk.create (x.path dir)).2 = .ok h → (disk'.create (y.path dir)).2 = .ok h' →
      (h.place = h'.place → x = y) ∧ ¬ isLogPlace h.place) ∧
    ∀ dir runName w, Writer.InUse dir runName w → w.Sorts dir := by
  refine ⟨fun m n form hname => ?_, fun x y => fileName_injective, fun x => ⟨?_, ?_, ?_⟩,
    fun a n ha => ?_, fun disk disk' dir x y h h' hplain hplain' hx hy => ?_,
    fun dir runName w hw => hw.named.sorts⟩
  · cases fileName_injective (x := ⟨.node m, form⟩) (y := ⟨.node n, form⟩) hname
    rfl
  · exact x.components_fileName
  · obtain ⟨_ | _, _⟩ := x
    · exact NodeLog.nodeOfText?_eq_none (by decide) _
    · exact NodeLog.nodeOfText?_eq_none (by decide) _
  · exact x.nodeOfName?_name
  · rw [← NodeLog.nodeOfName?_encode] at ha
    exact entryName_node (NodeLog.nodeOfName?_lt ha)
  · obtain ⟨place, -, hplace⟩ := hplain.create_output hx
    obtain ⟨place', -, hplace'⟩ := hplain'.create_output hy
    constructor
    · intro hsame
      rw [hplace, hplace'] at hsame
      exact name_injective (List.cons.inj (List.append_inj' hsame rfl).2).1
    · rw [hplace]
      exact At.not_log ⟨place, x, rfl⟩

/-- Two logs of node 7 and one of node 12, of which an entry each was written. -/
theorem destinations_logs :
    let s := (Session.opened.write (FullDevice.entry 7 "Vote".toList)).write
      (FullDevice.entry 12 "Vote".toList)
    NodeLog.nodeOfText? "stdout_7.log".toList = some 7 ∧
    NodeLog.nodeOfText? "STDERR_007.log".toList = some 7 ∧
    NodeLog.nodeOfText? "stderr_12.log".toList = some 12 ∧
    EntryName (name ⟨.node 7, .json⟩) ∧
    (∃ h h', (s.disk.create (path (.ofString "o") ⟨.node 7, .json⟩)).2 = .ok h ∧
      (s.disk.create (path (.ofString "o") ⟨.node 12, .json⟩)).2 = .ok h' ∧ h.place ≠ h'.place) ∧
    ∃ p q, s.writer.pair? 7 = some p ∧ s.writer.pair? 12 = some q ∧
      (∀ f g, (p.sink f).path = (p.sink g).path ↔ f = g) ∧
      ∀ f g, (p.sink f).path ≠ (q.sink g).path := by
  intro s
  have h7 : NodeLog.nodeOfText? "stdout_7.log".toList = some 7 := by decide +kernel
  have h7' : NodeLog.nodeOfText? "STDERR_007.log".toList = some 7 := by decide +kernel
  have h12 : NodeLog.nodeOfText? "stderr_12.log".toList = some 12 := by decide +kernel
  have huse : Writer.InUse (.ofString "o") [] s.writer :=
    (Session.starts_opened.inUse.session _).session _
  have hplain : s.disk.Plain := by decide +kernel
  have hopens {x : Outlet} (hx : (s.disk.create (x.path (.ofString "o"))).2.toOption.isSome) :
      ∃ h, (s.disk.create (x.path (.ofString "o"))).2 = .ok h := by
    cases h : (s.disk.create (x.path (.ofString "o"))).2 with
    | ok handle => exact ⟨handle, rfl⟩
    | error e => simp [h, Except.toOption] at hx
  obtain ⟨h, hok⟩ := hopens (x := ⟨.node 7, .json⟩) (by decide +kernel)
  obtain ⟨h', hok'⟩ := hopens (x := ⟨.node 12, .json⟩) (by decide +kernel)
  obtain ⟨p, hp⟩ : ∃ p, s.writer.pair? 7 = some p :=
    Option.isSome_iff_exists.mp (by decide +kernel)
  obtain ⟨q, hq⟩ : ∃ q, s.writer.pair? 12 = some q :=
    Option.isSome_iff_exists.mp (by decide +kernel)
  obtain ⟨-, -, -, hentry, hfiles, hsorts⟩ := destinations
  refine ⟨h7, h7', h12, hentry _ 7 h7' .json, ⟨h, h', hok, hok', ?_⟩, p, q, hp, hq, ?_, ?_⟩
  · intro hplace
    cases (hfiles s.disk s.disk _ _ _ h h' hplain hplain hok hok').1 hplace
  · intro f g
    rw [((hsorts _ _ _ huse).path_eq_iff _ _ 7 7 p p h7 h7' hp hp).2, h7, h7']
    exact and_iff_right rfl
  · intro f g hpath
    rw [((hsorts _ _ _ huse).path_eq_iff _ _ 7 12 p q h7 h12 hp hq).2, h7, h12] at hpath
    cases hpath.1

end Outlet

end NodeLogs
