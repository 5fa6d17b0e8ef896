import NodeLogs.Proofs.Output.Ending

/-! Files that a writer has opened itself. Whatever its disk looks like, a writer opens
files of outlets in its directory only, and writes to no file before it has opened it. -/

namespace NodeLogs

namespace Work

variable {α β : Type} {dir : Path}

/-- Work that opens files of outlets in a directory, and writes only to files at places
where it, or work before it, has opened one. The result is of a kind, given those places. -/
inductive WritesOwn (dir : Path) (Q : (Place → Prop) → α → Prop) : (Place → Prop) → Work α → Prop
  | done {own a} (hQ : Q own a) : WritesOwn dir Q own (done a)
  | create {own} {next : Except OsError Handle → Work α} (x : Outlet)
    (hok : ∀ h, WritesOwn dir Q (fun place => place = h.place ∨ own place) (next (.ok h)))
    (hfail : ∀ e, WritesOwn dir Q own (next (.error e))) :
    WritesOwn dir Q own (call (.create (x.path dir)) next)
  | write {own h bs} {next : Written → Work α} (hown : own h.place)
    (hnext : ∀ disk : Disk, WritesOwn dir Q own (next (disk.write h bs).2)) :
    WritesOwn dir Q own (call (.write h bs) next)

namespace WritesOwn

variable {Q : (Place → Prop) → α → Prop} {own : Place → Prop} {w : Work α}

theorem pure {a : α} (h : Q own a) : (Pure.pure a : Work α).WritesOwn dir Q own := .done h

/-- Places where files were opened stay such. -/
theorem bind {R : (Place → Prop) → β → Prop} {f : α → Work β} (hw : w.WritesOwn dir Q own)
    (hf : ∀ own' a, (∀ place, own place → own' place) → Q own' a → (f a).WritesOwn dir R own') :
    (w >>= f).WritesOwn dir R own := by
  induction hw with
  | done hQ => exact hf _ _ (fun _ => id) hQ
  | create x _ _ ihok ihfail =>
    refine .create x (fun h => ihok h fun own' a hsub => ?_) fun e => ihfail e hf
    exact hf own' a fun place hplace => hsub place (.inr hplace)
  | write hown _ ih => exact .write hown fun disk => ih disk hf

theorem mono {R : (Place → Prop) → α → Prop} (hw : w.WritesOwn dir Q own)
    (hQ : ∀ own' a, (∀ place, own place → own' place) → Q own' a → R own' a) :
    w.WritesOwn dir R own := by
  have := hw.bind (f := Pure.pure) fun own' a hsub ha => .pure (hQ own' a hsub ha)
  rwa [bind_pure] at this

theorem ofWritesTo {S : Place → Prop} {Q : α → Prop} (hw : w.WritesTo S Q)
    (hS : ∀ place, S place → own place) : w.WritesOwn dir (fun _ => Q) own := by
  induction hw with
  | done hQ => exact .done hQ
  | call hc _ ih =>
    obtain ⟨h, bs, rfl, hplace⟩ := hc
    exact .write (hS _ hplace) fun disk => ih disk trivial

end WritesOwn

end Work

/-- The open sinks of a writer have files at places of a kind. -/
structure Writer.KeepsTo (w : Writer) (dir : Path) (own : Place → Prop) : Prop where
  dir_eq : w.dir = dir
  once : (w.nodes.map Prod.fst).Nodup
  own : ∀ x sink, w.sinks x = some sink → own sink.handle.place

namespace Writer.KeepsTo

variable {w : Writer} {dir : Path} {own : Place → Prop}

theorem mono {own' : Place → Prop} (hw : w.KeepsTo dir own) (h : ∀ place, own place → own' place) :
    w.KeepsTo dir own' :=
  ⟨hw.dir_eq, hw.once, fun x sink hx => h _ (hw.own x sink hx)⟩

theorem setPair (hw : w.KeepsTo dir own) (n : Nat) {pair : SinkPair}
    (hpair : ∀ form, own (pair.sink form).handle.place) : (w.setPair n pair).KeepsTo dir own := by
  refine ⟨hw.dir_eq, once_setPair hw.once n pair, ?_⟩
  rintro ⟨g, form⟩ sink hx
  rw [sinks_setPair, Sinks.setPair] at hx
  split at hx
  · cases hx
    exact hpair form
  · exact hw.own _ _ hx

/-- Sinks in other states have the same files. -/
theorem same {later : Writer} (hw : w.KeepsTo dir own) (hsame : w.Same later) :
    later.KeepsTo dir own := by
  refine ⟨hsame.dir.trans hw.dir_eq, hsame.keys ▸ hw.once, fun x t ht => ?_⟩
  obtain ⟨s, hs, hplace⟩ := hsame.sinks.place ht
  exact hplace ▸ hw.own x s hs

end Writer.KeepsTo

variable {dir : Path} {own : Place → Prop}

theorem Sink.create_own (x : Outlet) : (Sink.create (x.path dir)).WritesOwn dir
    (fun own => Yields fun sink => own sink.handle.place) own :=
  .create x (fun _ => .pure (.inl rfl)) fun _ => .pure trivial

theorem SinkPair.create_own (g : Group) {name : Form → Text}
    (hname : ∀ form, dir.join (Path.ofText (name form)) = Outlet.path dir ⟨g, form⟩) :
    (SinkPair.create dir name).WritesOwn dir
      (fun own => Yields fun pair => ∀ form, own (pair.sink form).handle.place) own := by
  unfold SinkPair.create
  rw [hname .json, hname .plain]
  refine (Sink.create_own ⟨g, .json⟩).bind fun own₁ r _ hjson => ?_
  cases r with
  | error e => exact .pure trivial
  | ok json =>
    refine (Sink.create_own ⟨g, .plain⟩).bind fun own₂ r hsub hplain => ?_
    cases r with
    | error e =>
      refine (Work.WritesOwn.ofWritesTo json.release_writesTo ?_).bind fun _ _ _ _ => .pure trivial
      rintro _ rfl
      exact hsub _ hjson
    | ok plain =>
      refine .pure fun form => ?_
      cases form
      · exact hsub _ hjson
      · exact hplain

namespace Writer

variable {w : Writer}

/-- A writer for a directory that is there. -/
def createIn (dir : Path) (runName : Text) : Work (Except SinkError Writer) := do
  match ← SinkPair.create dir combinedFileName with
  | .error e => return .error e
  | .ok combined => return .ok { dir, runName, combined }

theorem create_eq (dir : Path) (runName : Text) :
    create dir runName = Work.makeAllDirs dir >>= fun
      | .error e => pure (.error ⟨.createDir, dir, e⟩)
      | .ok () => createIn dir runName := rfl

theorem createIn_own (dir : Path) (runName : Text) : (createIn dir runName).WritesOwn dir
    (fun own => Yields fun w => w.KeepsTo dir own) own := by
  refine (SinkPair.create_own .all (Outlet.path_all dir)).bind fun own' r _ hpair => ?_
  cases r with
  | error e => exact .pure trivial
  | ok combined =>
    refine .pure ⟨rfl, List.nodup_nil, ?_⟩
    rintro ⟨g, form⟩ sink hx
    cases g with
    | node n => cases hx
    | all =>
      cases hx
      exact hpair form

theorem openPair_own (hw : w.KeepsTo dir own) (n : Nat) : (w.openPair n).WritesOwn dir
    (fun own => Yields fun pair => (w.setPair n pair).KeepsTo dir own) own := by
  unfold openPair
  cases hfound : w.pair? n with
  | some pair =>
    exact .pure (hw.setPair n fun form => hw.own ⟨.node n, form⟩ _ (sinks_of_pair? hfound form))
  | none =>
    simp only [hw.dir_eq]
    refine (SinkPair.create_own (.node n) (Outlet.path_node dir n)).mono fun own' r hsub hr => ?_
    cases r with
    | error e => trivial
    | ok pair => exact (hw.mono hsub).setPair n hr

theorem write_own (hw : w.KeepsTo dir own) (r : Record) (source : Path) (n : Nat) :
    (w.write r source n).WritesOwn dir (fun own r => r.1.KeepsTo dir own) own := by
  rw [show w.write r source n = _ from w.write_eq ⟨r, source, n⟩]
  refine (openPair_own hw n).bind fun own' opened hsub hopened => ?_
  cases opened with
  | error e => exact .pure (hw.mono hsub)
  | ok pair =>
    have hpair : (w.setPair n pair).KeepsTo dir own' := hopened
    refine (Work.WritesOwn.ofWritesTo (w.serve_writesTo n pair _) ?_).mono
      fun own'' result hsub' hsame => (hpair.same hsame).mono hsub'
    rintro _ ⟨x, sink, hx, rfl⟩
    exact hpair.own x sink hx

theorem finish_own (hw : w.KeepsTo dir own) :
    w.finish.WritesOwn dir (fun _ _ => True) own := by
  refine .ofWritesTo (finish_uses hw.once) ?_
  rintro _ ⟨x, sink, hx, rfl⟩
  exact hw.own x sink hx

theorem release_own (hw : w.KeepsTo dir own) :
    w.release.WritesOwn dir (fun _ _ => True) own := by
  refine .ofWritesTo (release_uses hw.once) ?_
  rintro _ ⟨x, sink, hx, rfl⟩
  exact hw.own x sink hx

end Writer

end NodeLogs
