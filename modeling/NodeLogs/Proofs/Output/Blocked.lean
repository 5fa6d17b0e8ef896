import NodeLogs.Proofs.Output.Echo

/-! Files that cannot be opened. In a directory of a plain disk, the one thing that stands in the
way of a file is a directory of its name, and it stays there. So where no write is refused, a writer
fails at an entry only if one of the files of its node is a directory. -/

namespace NodeLogs

namespace Disk

variable {disk : Disk} {p : Path}

/-- Directories stay directories. -/
theorem Plain.isDir_run {α : Type} (h : disk.Plain) (w : Work α) (hdir : disk.isDir p) :
    (w.run disk).1.isDir p := by
  obtain ⟨hne, place, hp⟩ := h.leadsTo_of_isDir hdir
  exact (hp.keeps h (h.run w) (w.run_updates h.cwd)).isDir (h.run w) hne

/-- What is a directory is no regular file. -/
theorem bytesOf?_of_isDir (hdir : disk.isDir p) : disk.bytesOf? p = none := by
  obtain ⟨place, hloc, es, hes⟩ := (disk.isDir_iff p).mp hdir
  rw [bytesOf?_of_found hloc, bytesAt?, hes]
  rfl

namespace LeadsTo

variable {place : Place} (h : disk.LeadsTo p place) (hplain : disk.Plain)
include h hplain

/-- A sink cannot be opened only where a directory has its name. -/
theorem createSink_error {x : Outlet} (hx : EntryName x.name) {failure : SinkError}
    (herr : ((Sink.create (x.path p)).run disk).2 = .error failure) :
    failure = ⟨.openSink, x.path p, .isADirectory⟩ ∧
      ((Sink.create (x.path p)).run disk).1.isDir (x.path p) := by
  have hcreate := h.create_child hplain hx.toStepName
  rw [if_neg (Nat.not_lt.mpr hx.length_le)] at hcreate
  have hpath : x.path p = p.child x.name := rfl
  unfold Sink.create at herr ⊢
  rw [Work.run_bind, Work.run_create, hpath, hcreate] at herr ⊢
  cases hn : disk.root.at? (place ++ [x.name]) with
  | none =>
    rw [hn] at herr
    cases herr
  | some n =>
    rw [hn] at herr
    cases n with
    | file | link | device => cases herr
    | dir es =>
      cases herr
      exact ⟨rfl, (h.child hplain hx ⟨es, hn⟩).isDir hplain (Path.child_ne_nil hx.toStepName p)⟩

/-- A pair cannot be opened only where a directory has the name of one of its files. -/
theorem createPair_error {g : Group} {name : Form → Text}
    (hname : ∀ form, p.join (Path.ofText (name form)) = Outlet.path p ⟨g, form⟩)
    (hentry : ∀ form, EntryName (Outlet.name ⟨g, form⟩)) {failure : SinkError}
    (herr : ((SinkPair.create p name).run disk).2 = .error failure) :
    ∃ form, failure = ⟨.openSink, Outlet.path p ⟨g, form⟩, .isADirectory⟩ ∧
      ((SinkPair.create p name).run disk).1.isDir (Outlet.path p ⟨g, form⟩) := by
  cases SinkPair.opening p name disk with
  | noJson made e hjson hrun =>
    rw [hname .json] at hjson
    have hblocked := h.createSink_error hplain (hentry .json) (congrArg Prod.snd hjson)
    rw [hjson] at hblocked
    rw [hrun] at herr ⊢
    cases herr
    exact ⟨.json, hblocked⟩
  | noPlain made last sink e hjson hplain' hrun =>
    rw [hname .plain] at hplain'
    have hmade := hplain.run (Sink.create (p.join (Path.ofText (name .json))))
    have hleads := h.keeps hplain hmade (Work.run_updates _ hplain.cwd)
    rw [hjson] at hmade hleads
    have hlast := hmade.run (Sink.create (Outlet.path p ⟨g, .plain⟩))
    have hblocked := hleads.createSink_error hmade (hentry .plain) (congrArg Prod.snd hplain')
    rw [hplain'] at hlast hblocked
    rw [hrun] at herr ⊢
    cases herr
    exact ⟨.plain, hblocked.1, hlast.isDir_run sink.release hblocked.2⟩
  | both made last pair hjson hplain' hrun =>
    rw [hrun] at herr
    cases herr

end LeadsTo

end Disk

namespace Writer

/-- A writer cannot be made where its directory cannot, or where a directory has the name of a file
of all nodes. -/
theorem create_error {disk : Disk} (hplain : disk.Plain) {dir : Path} {runName : Text}
    (hleads : ((Work.makeAllDirs dir).run disk).2 = .ok () →
      ∃ place, ((Work.makeAllDirs dir).run disk).1.LeadsTo dir place) {failure : SinkError}
    (herr : ((create dir runName).run disk).2 = .error failure) :
    (∃ e, ((Work.makeAllDirs dir).run disk).2 = .error e ∧ failure = ⟨.createDir, dir, e⟩) ∨
      ∃ form, failure = ⟨.openSink, Outlet.path dir ⟨.all, form⟩, .isADirectory⟩ ∧
        ((create dir runName).run disk).1.isDir (Outlet.path dir ⟨.all, form⟩) := by
  cases making dir runName disk with
  | noDir made e hdir hrun =>
    rw [hrun] at herr
    cases herr
    exact .inl ⟨e, congrArg Prod.snd hdir, rfl⟩
  | noPair made last e hdir hpair hrun =>
    have hmade := hplain.run (Work.makeAllDirs dir)
    obtain ⟨place, hplace⟩ := hleads (congrArg Prod.snd hdir)
    rw [hdir] at hmade hplace
    have hblocked := hplace.createPair_error hmade (Outlet.path_all dir) Outlet.entryName_all
      (congrArg Prod.snd hpair)
    rw [hpair] at hblocked
    rw [hrun] at herr ⊢
    cases herr
    exact .inr hblocked
  | done made last combined hdir hpair hrun =>
    rw [hrun] at herr
    cases herr

/-- Where no write is refused, a write fails only where a directory has the name of a file of the
entry's node. -/
theorem write_error {w : Writer} {disk : Disk} {place : Place} (hplain : disk.Plain)
    (hdir : disk.LeadsTo w.dir place) {e : Entry} (hnode : e.node < wordLimit)
    (hok : (w.write e.record e.source e.node).Accepted disk) {failure : SinkError}
    (herr : ((w.write e.record e.source e.node).run disk).2.2 = some failure) :
    ∃ form, failure = ⟨.openSink, Outlet.path w.dir ⟨.node e.node, form⟩, .isADirectory⟩ ∧
      ((w.write e.record e.source e.node).run disk).1.isDir
        (Outlet.path w.dir ⟨.node e.node, form⟩) := by
  cases w.writing disk e with
  | served made pair hopen =>
    rw [write_ok_of_accepted hok (congrArg Prod.snd hopen)] at herr
    cases herr
  | unopened last failure' hopen hrun =>
    have hnew := openPair_error (congrArg Prod.snd hopen)
    unfold openPair at hopen
    rw [hnew] at hopen
    have hblocked := hdir.createPair_error hplain (Outlet.path_node w.dir e.node)
      (Outlet.entryName_node hnode) (congrArg Prod.snd hopen)
    rw [hopen] at hblocked
    rw [hrun] at herr ⊢
    cases herr
    exact hblocked

end Writer

end NodeLogs
