import NodeLogs.Output.Writer
import NodeLogs.Proofs.Output.Sinks
import NodeLogs.Proofs.Tree.Directories

/-! What the steps of output come to. Every way that the opening of a pair, the making of a writer
and a line for a pair can go is told here once, with the disks between the calls, the result and
the files that were opened. -/

namespace NodeLogs

namespace Sink

/-- Opening a sink opens its file and touches that. -/
theorem create_files (p : Path) (disk : Disk) :
    (create p).touched disk =
        (((create p).run disk).2.toOption.map fun sink => sink.handle.place).toList ∧
      (create p).created disk =
        (((create p).run disk).2.toOption.map fun sink => (p, sink.handle)).toList := by
  unfold create
  cases h : (disk.create p).2 <;>
    simp [Work.touched, Work.created, Disk.touched, h, Except.toOption]

section Files

variable {p : Path} {disk made : Disk}

/-- Where no sink is opened, nothing is touched. -/
theorem create_updates_of_error (hcwd : disk.HasCwd) {e : SinkError}
    (h : (create p).run disk = (made, .error e)) :
    Disk.Updates (fun _ => False) disk made := by
  have hu := (create p).run_updates hcwd
  rw [(create_files p disk).1, h] at hu
  exact hu.mono fun place hplace => nomatch hplace

/-- Where one is, it is its own file alone. -/
theorem create_updates_of_ok (hcwd : disk.HasCwd) {sink : Sink}
    (h : (create p).run disk = (made, .ok sink)) :
    Disk.Updates (· = sink.handle.place) disk made := by
  have hu := (create p).run_updates hcwd
  rw [(create_files p disk).1, h] at hu
  exact hu.mono fun place hplace => List.mem_singleton.mp hplace

theorem create_created_of_error {e : SinkError} (h : (create p).run disk = (made, .error e)) :
    (create p).created disk = [] := by
  rw [(create_files p disk).2, h]
  rfl

theorem create_created_of_ok {sink : Sink} (h : (create p).run disk = (made, .ok sink)) :
    (create p).created disk = [(p, sink.handle)] := by
  rw [(create_files p disk).2, h]
  rfl

/-- A sink that is opened is new, and its file is open for it. -/
theorem create_opens {sink : Sink} (h : (create p).run disk = (made, .ok sink)) :
    disk.create p = (made, .ok sink.handle) ∧ sink.path = p ∧ sink.buffer = [] := by
  unfold create at h
  rw [Work.run_bind, Work.run_create] at h
  rcases hopen : disk.create p with ⟨opened, e | handle⟩
  · rw [hopen] at h
    cases h
  · rw [hopen] at h
    cases h
    exact ⟨rfl, rfl, rfl⟩

theorem create_ok (h : (create p).Granted disk) : ∃ sink, ((create p).run disk).2 = .ok sink := by
  obtain ⟨handle, hok, -⟩ := h (disk, .create p) List.mem_cons_self
  unfold create
  rw [Work.run_bind, Work.run_create, hok]
  exact ⟨_, rfl⟩

end Files

theorem create_opensNoLog (p : Path) : (create p).OpensNoLog := by
  refine .bind (Q := fun _ => True) (.ask (by simp) fun _ _ => trivial) fun r _ => ?_
  cases r <;> exact .pure trivial

end Sink

/-! ### Pairs -/

namespace SinkPair

section Opening

variable (dir : Path) (name : Form → Text) (disk : Disk)

/-- How the opening of a pair can go: the file for JSON cannot be opened; the plain one cannot,
and the sink that is open already is let go of; or both are opened. -/
inductive Opening : Prop
  | noJson (made : Disk) (e : SinkError)
    (hjson : (Sink.create (dir.join (Path.ofText (name .json)))).run disk = (made, .error e))
    (hrun : (create dir name).run disk = (made, .error e))
    (hcreated : (create dir name).created disk = [])
  | noPlain (made last : Disk) (sink : Sink) (e : SinkError)
    (hjson : (Sink.create (dir.join (Path.ofText (name .json)))).run disk = (made, .ok sink))
    (hplain : (Sink.create (dir.join (Path.ofText (name .plain)))).run made = (last, .error e))
    (hrun : (create dir name).run disk = ((sink.release.run last).1, .error e))
    (hcreated : (create dir name).created disk =
      [(dir.join (Path.ofText (name .json)), sink.handle)])
  | both (made last : Disk) (pair : SinkPair)
    (hjson : (Sink.create (dir.join (Path.ofText (name .json)))).run disk = (made, .ok pair.json))
    (hplain : (Sink.create (dir.join (Path.ofText (name .plain)))).run made = (last, .ok pair.plain))
    (hrun : (create dir name).run disk = (last, .ok pair))
    (hcreated : (create dir name).created disk =
      [(dir.join (Path.ofText (name .json)), pair.json.handle),
        (dir.join (Path.ofText (name .plain)), pair.plain.handle)])

theorem opening : Opening dir name disk := by
  cases hjson : (Sink.create (dir.join (Path.ofText (name .json)))).run disk with
  | mk made json =>
  cases json with
  | error e =>
    have hnone := Sink.create_created_of_error hjson
    exact .noJson made e hjson (by simp [create, hjson]) (by simp [create, hjson, hnone])
  | ok json =>
    have hone := Sink.create_created_of_ok hjson
    cases hplain : (Sink.create (dir.join (Path.ofText (name .plain)))).run made with
    | mk last plain =>
    cases plain with
    | error e =>
      have hnone := Sink.create_created_of_error hplain
      have hquiet := json.release_writesTo.created_eq last
      exact .noPlain made last json e hjson hplain
        (by simp [create, hjson, hplain, -bind_pure_comp])
        (by simp [create, hjson, hplain, hone, hnone, hquiet, -bind_pure_comp])
    | ok plain =>
      have hother := Sink.create_created_of_ok hplain
      exact .both made last ⟨json, plain⟩ hjson hplain (by simp [create, hjson, hplain])
        (by simp [create, hjson, hplain, hone, hother])

end Opening

variable {dir : Path} {name : Form → Text} {disk : Disk}

/-- A pair is opened under the names for its forms. -/
theorem create_created_path : ∀ f ∈ (create dir name).created disk,
    ∃ form, f.1 = dir.join (Path.ofText (name form)) := by
  intro f hf
  cases opening dir name disk with
  | noJson made e hjson hrun hcreated =>
    rw [hcreated] at hf
    cases hf
  | noPlain made last sink e hjson hplain hrun hcreated =>
    rw [hcreated] at hf
    exact ⟨.json, List.mem_singleton.mp hf ▸ rfl⟩
  | both made last pair hjson hplain hrun hcreated =>
    rw [hcreated] at hf
    rcases List.mem_cons.mp hf with rfl | hf
    · exact ⟨.json, rfl⟩
    · exact ⟨.plain, List.mem_singleton.mp hf ▸ rfl⟩

/-- Where a pair cannot be opened, nothing but its file for JSON has been. -/
theorem create_created_of_error {failure : SinkError}
    (h : ((create dir name).run disk).2 = .error failure) :
    ∀ f ∈ (create dir name).created disk, f.1 = dir.join (Path.ofText (name .json)) := by
  intro f hf
  cases opening dir name disk with
  | noJson made e hjson hrun hcreated =>
    rw [hcreated] at hf
    cases hf
  | noPlain made last sink e hjson hplain hrun hcreated =>
    rw [hcreated] at hf
    exact List.mem_singleton.mp hf ▸ rfl
  | both made last pair hjson hplain hrun hcreated =>
    rw [hrun] at h
    cases h

/-- A pair is opened if nothing is refused. -/
theorem create_ok (h : (create dir name).Granted disk) :
    ∃ pair, ((create dir name).run disk).2 = .ok pair := by
  unfold create at h
  cases opening dir name disk with
  | noJson made e hjson =>
    obtain ⟨sink, hok⟩ := Sink.create_ok (Work.granted_bind.mp h).1
    rw [hjson] at hok
    cases hok
  | noPlain made last json e hjson hplain =>
    have hrest := ((Work.granted_rest hjson).mp h).2
    obtain ⟨sink, hok⟩ := Sink.create_ok (Work.granted_bind.mp hrest).1
    rw [hplain] at hok
    cases hok
  | both made last pair hjson hplain hrun => exact ⟨pair, congrArg Prod.snd hrun⟩

/-- Opening a pair touches the files that it opens, and no others. -/
theorem create_touched : ∀ place ∈ (create dir name).touched disk,
    ∃ f ∈ (create dir name).created disk, f.2.place = place := by
  intro place hplace
  unfold create at hplace
  cases opening dir name disk with
  | noJson made e hjson =>
    simp [hjson, (Sink.create_files _ disk).1, Except.toOption] at hplace
  | noPlain made last sink e hjson hplain hrun hcreated =>
    have htouched : place = sink.handle.place ∨ place ∈ sink.release.touched last := by
      simpa [hjson, hplain, (Sink.create_files _ _).1, Except.toOption, -bind_pure_comp] using hplace
    rw [hcreated]
    exact ⟨_, List.mem_cons_self,
      (htouched.elim id (sink.release_writesTo.touched_sub last place)).symm⟩
  | both made last pair hjson hplain hrun hcreated =>
    rw [hcreated]
    simpa [hjson, hplain, (Sink.create_files _ _).1, Except.toOption, eq_comm] using hplace

theorem create_opensNoLog (dir : Path) (name : Form → Text) : (create dir name).OpensNoLog := by
  unfold create
  refine Work.Stays.bind (Sink.create_opensNoLog _) fun r _ => ?_
  cases r with
  | error e => exact .pure trivial
  | ok json =>
    refine Work.Stays.bind (Sink.create_opensNoLog _) fun r _ => ?_
    cases r with
    | error e => exact Work.Stays.bind json.release_writesTo.opensNoLog fun _ _ => .pure trivial
    | ok plain => exact .pure trivial

/-- How a line can go to a pair: the sink for JSON refuses it, or the plain one gets it as well,
whatever comes of that. -/
inductive Putting (pair : SinkPair) (json plain : Bytes) (disk : Disk) : Prop
  | refused (made : Disk) (sink : Sink) (e : SinkError)
    (hjson : (pair.json.putLine json).run disk = (made, sink, some e))
    (hrun : (pair.putLines json plain).run disk = (made, { pair with json := sink }, some e))
  | taken (made last : Disk) (later : SinkPair) (failure : Option SinkError)
    (hjson : (pair.json.putLine json).run disk = (made, later.json, none))
    (hplain : (pair.plain.putLine plain).run made = (last, later.plain, failure))
    (hrun : (pair.putLines json plain).run disk = (last, later, failure))

theorem putting (pair : SinkPair) (json plain : Bytes) (disk : Disk) :
    Putting pair json plain disk := by
  rcases hjson : (pair.json.putLine json).run disk with ⟨made, sink, _ | e⟩
  · rcases hplain : (pair.plain.putLine plain).run made with ⟨last, other, failure⟩
    exact .taken made last ⟨sink, other⟩ failure hjson hplain
      (by simp [putLines, hjson, hplain, -bind_pure_comp])
  · exact .refused made sink e hjson (by simp [putLines, hjson])

end SinkPair

/-! ### Writers -/

namespace Writer

section Making

variable (dir : Path) (runName : Text) (disk : Disk)

/-- How the making of a writer can go: its directory cannot be made; the files of all nodes cannot
be opened in there; or it is made. -/
inductive Making : Prop
  | noDir (made : Disk) (e : OsError)
    (hdir : (Work.makeAllDirs dir).run disk = (made, .error e))
    (hrun : (create dir runName).run disk = (made, .error ⟨.createDir, dir, e⟩))
    (hcreated : (create dir runName).created disk = [])
  | noPair (made last : Disk) (e : SinkError)
    (hdir : (Work.makeAllDirs dir).run disk = (made, .ok ()))
    (hpair : (SinkPair.create dir combinedFileName).run made = (last, .error e))
    (hrun : (create dir runName).run disk = (last, .error e))
    (hcreated : (create dir runName).created disk =
      (SinkPair.create dir combinedFileName).created made)
  | done (made last : Disk) (combined : SinkPair)
    (hdir : (Work.makeAllDirs dir).run disk = (made, .ok ()))
    (hpair : (SinkPair.create dir combinedFileName).run made = (last, .ok combined))
    (hrun : (create dir runName).run disk = (last, .ok { dir, runName, combined }))
    (hcreated : (create dir runName).created disk =
      (SinkPair.create dir combinedFileName).created made)

theorem making : Making dir runName disk := by
  have hnone := (Work.makeAllDirs_onlyDirs dir).created_eq disk
  rcases hdir : (Work.makeAllDirs dir).run disk with ⟨made, e | u⟩
  · exact .noDir made e hdir (by simp [create, hdir]) (by simp [create, hdir, hnone])
  · rcases hpair : (SinkPair.create dir combinedFileName).run made with ⟨last, e | combined⟩
    · exact .noPair made last e hdir hpair (by simp [create, hdir, hpair])
        (by simp [create, hdir, hpair, hnone])
    · exact .done made last combined hdir hpair (by simp [create, hdir, hpair])
        (by simp [create, hdir, hpair, hnone])

end Making

variable {dir : Path} {runName : Text} {disk : Disk}

/-- To make a writer changes no file but those that it opens. -/
theorem create_sameFiles (hcwd : disk.HasCwd) {P : Place → Prop}
    (hfree : ∀ f ∈ (create dir runName).created disk, ¬ P f.2.place) :
    Disk.SameFiles P disk ((create dir runName).run disk).1 := by
  have hdirs := (Work.makeAllDirs_onlyDirs dir).sameFiles hcwd P
  have hpairs {made last : Disk} {r : Except SinkError SinkPair}
      (hdir : (Work.makeAllDirs dir).run disk = (made, .ok ()))
      (hpair : (SinkPair.create dir combinedFileName).run made = (last, r))
      (hcreated : (create dir runName).created disk =
        (SinkPair.create dir combinedFileName).created made) : Disk.SameFiles P disk last := by
    have hmade := (Work.makeAllDirs dir).run_hasCwd hcwd
    rw [hdir] at hdirs hmade
    have hu := (SinkPair.create dir combinedFileName).run_updates hmade
    rw [hpair] at hu
    refine hdirs.trans (hu.sameFiles fun place hplace hmem => ?_)
    obtain ⟨f, hf, rfl⟩ := SinkPair.create_touched place hmem
    exact hfree f (hcreated ▸ hf) hplace
  cases making dir runName disk with
  | noDir made e hdir hrun => rwa [hrun, ← congrArg Prod.fst hdir]
  | noPair made last e hdir hpair hrun hcreated => exact hrun ▸ hpairs hdir hpair hcreated
  | done made last combined hdir hpair hrun hcreated => exact hrun ▸ hpairs hdir hpair hcreated

theorem create_opensNoLog (dir : Path) (runName : Text) : (create dir runName).OpensNoLog := by
  unfold create
  refine Work.Stays.bind (Work.makeAllDirs_onlyDirs dir).opensNoLog fun made _ => ?_
  cases made with
  | error e => exact .pure trivial
  | ok u =>
    refine Work.Stays.bind (SinkPair.create_opensNoLog dir combinedFileName) fun r _ => ?_
    cases r <;> exact .pure trivial

/-- In a directory that can be made, a writer is made if nothing is refused. -/
theorem create_ok (h : (create dir runName).Granted disk)
    (hdirs : ((Work.makeAllDirs dir).run disk).2 = .ok ()) :
    ∃ w, ((create dir runName).run disk).2 = .ok w := by
  unfold create at h
  cases making dir runName disk with
  | noDir made e hdir =>
    rw [hdir] at hdirs
    cases hdirs
  | noPair made last e hdir hpair =>
    have hrest := ((Work.granted_rest hdir).mp h).2
    obtain ⟨pair, hok⟩ := SinkPair.create_ok (Work.granted_bind.mp hrest).1
    rw [hpair] at hok
    cases hok
  | done made last combined hdir hpair hrun => exact ⟨_, congrArg Prod.snd hrun⟩

end Writer

end NodeLogs
