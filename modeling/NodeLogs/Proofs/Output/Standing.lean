import NodeLogs.Proofs.Output.Destinations
import NodeLogs.Proofs.Tree.Elsewhere

/-! Writers in use, whatever they open and whatever their devices refuse. A sink stands if it has
the first of its bytes in its file or writes to a device. As long as no two of the paths that a
writer has opened lead to one regular file, all of its sinks stand, and no two of them write to
one place unless a device is there. -/

namespace NodeLogs

variable {disk later : Disk} {S : Place → Prop}

/-- What is opened for writing is a regular file or a device. -/
theorem Disk.create_hasFile_or_hasDevice (hcwd : disk.HasCwd) {p : Path} {h : Handle}
    (hok : (disk.create p).2 = .ok h) :
    (disk.create p).1.root.HasFile h.place ∨ (disk.create p).1.root.HasDevice h.place := by
  rcases disk.create_cases p with ⟨e, hc⟩ | ⟨place, name, hloc, hc⟩ |
    ⟨place, born, bytes, access, -, hold, hc⟩ | ⟨place, hloc, hnot, hc⟩
  all_goals rw [hc] at hok ⊢; cases hok
  · obtain ⟨hdir, -⟩ := Node.locate_names hcwd hloc
    exact .inl ⟨_, _, _, Node.at?_put_self hdir name _ []⟩
  · exact .inl ⟨_, _, _, Node.at?_put_over hcwd.top hold (by simp) _⟩
  · obtain ⟨n, hn, hlink⟩ := Node.locate_names hcwd hloc
    cases n with
    | file born bytes access => exact absurd hn (hnot _ _ _)
    | link target => exact absurd rfl (hlink rfl target)
    | device kind => exact .inr ⟨kind, hn⟩
    | dir es =>
      have hslash : p.endsInSlash = false := by
        cases h : p.endsInSlash with
        | false => rfl
        | true =>
          unfold Disk.create at hc
          rw [if_pos h] at hc
          split at hc <;> cases (Prod.mk.inj hc).2
      simp [Disk.create, hslash, hloc, hn] at hc

/-! ### What is opened -/

/-- Different paths that are opened lead to different places, and none to a place that is taken for
it, but for places of devices. -/
structure Work.OpensApart {α : Type} (w : Work α) (disk : Disk) (taken : Path → Place → Prop) :
    Prop where
  apart : ∀ f ∈ w.created disk, ∀ g ∈ w.created disk, f.2.place = g.2.place →
    (w.run disk).1.root.HasFile f.2.place → f.1 = g.1
  free : ∀ f ∈ w.created disk, (w.run disk).1.root.HasFile f.2.place → ¬ taken f.1 f.2.place

namespace Work.OpensApart

variable {α β : Type} {w : Work α} {f : α → Work β} {taken : Path → Place → Prop}

theorem left (hcwd : disk.HasCwd) (h : (w >>= f).OpensApart disk taken) :
    w.OpensApart disk taken := by
  have hlasts {place : Place} (hfile : (w.run disk).1.root.HasFile place) :
      ((w >>= f).run disk).1.root.HasFile place := by
    rw [run_bind]
    exact ((f (w.run disk).2).run_updates (w.run_hasCwd hcwd)).hasFile hfile
  constructor
  · intro e he e' he' hplace hfile
    exact h.apart e (by simp [he]) e' (by simp [he']) hplace (hlasts hfile)
  · intro e he hfile
    exact h.free e (by simp [he]) (hlasts hfile)

theorem right (h : (w >>= f).OpensApart disk taken) :
    (f (w.run disk).2).OpensApart (w.run disk).1
      fun p place => taken p place ∨ ∃ e ∈ w.created disk, e.1 ≠ p ∧ e.2.place = place := by
  have hrun : ((w >>= f).run disk).1 = ((f (w.run disk).2).run (w.run disk).1).1 := by
    rw [run_bind]
  constructor
  · intro e he e' he' hplace hfile
    exact h.apart e (by simp [he]) e' (by simp [he']) hplace (hrun ▸ hfile)
  · intro e he hfile htaken
    rcases htaken with htaken | ⟨e', he', hne, hplace⟩
    · exact h.free e (by simp [he]) (hrun ▸ hfile) htaken
    · exact hne (h.apart e' (by simp [he']) e (by simp [he]) hplace (hplace ▸ hrun ▸ hfile))

theorem rest {a : α} (hw : w.run disk = (later, a)) (h : (w >>= f).OpensApart disk taken) :
    (f a).OpensApart later
      fun p place => taken p place ∨ ∃ e ∈ w.created disk, e.1 ≠ p ∧ e.2.place = place := by
  have hright := h.right
  rwa [hw] at hright

end Work.OpensApart

/-! ### Single sinks -/

namespace Sink

variable {sink : Sink}

/-- The first of its bytes are in its file, or it writes to a device. -/
def Stands (disk : Disk) (sink : Sink) : Prop :=
  (∃ bytes, sink.Holds disk bytes) ∨ disk.root.HasDevice sink.handle.place

theorem Stands.not_dir (h : sink.Stands disk) : ¬ disk.root.HasDir sink.handle.place := by
  rintro ⟨es, hes⟩
  rcases h with ⟨_, _, _, _, hn, _⟩ | ⟨kind, hn⟩ <;> cases hes.symm.trans hn

/-- Nor is a directory put in its place. -/
theorem Stands.not_dir_later (h : sink.Stands disk) (hu : Disk.Updates S disk later) :
    ¬ later.root.HasDir sink.handle.place := by
  rintro ⟨es, hes⟩
  rcases h with ⟨_, _, _, _, hn, _⟩ | ⟨kind, hn⟩
  all_goals
    obtain ⟨m, hm, hkind⟩ := hu.kinds _ _ hn
    cases hm.symm.trans hes
    cases hkind

/-- It is the node at its place that counts. -/
theorem Stands.congr (h : sink.Stands disk)
    (hnode : later.root.at? sink.handle.place = disk.root.at? sink.handle.place) :
    sink.Stands later := by
  unfold Stands Holds Node.HasDevice at h ⊢
  rw [hnode]
  exact h

/-- Changes elsewhere are nothing to a sink, nor is a device changed. -/
theorem Stands.frame (h : sink.Stands disk) (hu : Disk.Updates S disk later)
    (hS : S sink.handle.place → later.root.HasDevice sink.handle.place) : sink.Stands later := by
  by_cases hplace : S sink.handle.place
  · exact .inr (hS hplace)
  · exact h.congr (hu.others _ hplace h.not_dir)

theorem Stands.putLine (hcwd : disk.HasCwd) (h : sink.Stands disk) (line : Bytes) :
    ((sink.putLine line).run disk).2.1.Stands ((sink.putLine line).run disk).1 := by
  rcases h with ⟨bytes, hbytes⟩ | hdevice
  · obtain ⟨part, -, -, hholds, -⟩ := putLine_takesPart hcwd hbytes line
    exact .inl ⟨_, hholds⟩
  · have hsame := (sink.putLine_writesTo line).run disk
    refine .inr ?_
    rw [hsame.2.1]
    exact ((sink.putLine line).run_updates hcwd).hasDevice hdevice

/-- A sink that was just opened stands. -/
theorem create_stands (hcwd : disk.HasCwd) {path : Path}
    (hopen : (Sink.create path).run disk = (later, .ok sink)) : sink.Stands later := by
  obtain ⟨hcreate, -, hbuffer⟩ := Sink.create_opens hopen
  have hok := congrArg Prod.snd hcreate
  have hplace := Disk.create_hasFile_or_hasDevice hcwd hok
  rw [hcreate] at hplace
  rcases hplace with hfile | hdevice
  · obtain ⟨hstart, access, hfile⟩ := Disk.create_file hcwd hok (by rwa [hcreate])
    rw [hcreate] at hfile
    exact .inl ⟨[], by simp [hbuffer], [], access, hfile, hstart, by simp [hbuffer]⟩
  · exact .inr hdevice

end Sink

/-! ### Sinks at outlets -/

namespace Sinks

/-- All sinks stand, and no two write to one place unless a device is there. -/
structure Stand (disk : Disk) (sinks : Sinks) : Prop where
  stands : ∀ x sink, sinks x = some sink → sink.Stands disk
  apart : ∀ x y s t, sinks x = some s → sinks y = some t → x ≠ y →
    s.handle.place = t.handle.place → disk.root.HasDevice s.handle.place

namespace Stand

variable {sinks : Sinks} {x : Outlet} {sink : Sink}

theorem frame (h : Stand disk sinks) (hu : Disk.Updates S disk later)
    (hS : ∀ x s, sinks x = some s → S s.handle.place → later.root.HasDevice s.handle.place) :
    Stand later sinks where
  stands x s hs := (h.stands x s hs).frame hu (hS x s hs)
  apart x y s t hs ht hne hplace := hu.hasDevice (h.apart x y s t hs ht hne hplace)

/-- One sink is opened, or is in another state, after changes that do not concern the others. -/
theorem set (h : Stand disk sinks) (hu : Disk.Updates S disk later) (hnew : sink.Stands later)
    (hothers : ∀ y s, y ≠ x → sinks y = some s →
      S s.handle.place ∨ s.handle.place = sink.handle.place →
      later.root.HasDevice s.handle.place) : Stand later (sinks.set x sink) := by
  have hself {s : Sink} (hs : sinks.set x sink x = some s) : s = sink := by
    simpa [Sinks.set] using hs.symm
  have hother {y : Outlet} {s : Sink} (hyx : y ≠ x) (hs : sinks.set x sink y = some s) :
      sinks y = some s := by
    simpa [Sinks.set, hyx] using hs
  constructor
  · intro y s hs
    by_cases hyx : y = x
    · subst hyx
      exact hself hs ▸ hnew
    · have hs := hother hyx hs
      exact (h.stands y s hs).frame hu fun hplace => hothers y s hyx hs (.inl hplace)
  · intro y z s t hs ht hne hplace
    by_cases hyx : y = x
    · subst hyx
      obtain rfl := hself hs
      rw [hplace]
      exact hothers z t hne.symm (hother hne.symm ht) (.inr hplace.symm)
    · have hy := hother hyx hs
      by_cases hzx : z = x
      · subst hzx
        obtain rfl := hself ht
        exact hothers y s hyx hy (.inr hplace)
      · exact hu.hasDevice (h.apart y z s t hy (hother hzx ht) hne hplace)

/-- One sink takes a line. -/
theorem putLine (h : Stand disk sinks) (hcwd : disk.HasCwd) (hx : sinks x = some sink)
    (line : Bytes) :
    Stand ((sink.putLine line).run disk).1 (sinks.set x ((sink.putLine line).run disk).2.1) := by
  have hwrites := sink.putLine_writesTo line
  have hu := ((sink.putLine line).run_updates hcwd).mono (hwrites.touched_sub disk)
  refine h.set hu ((h.stands x sink hx).putLine hcwd line) fun y s hyx hs hplace => ?_
  rw [(hwrites.run disk).2.1, or_self] at hplace
  exact hu.hasDevice (h.apart y x s sink hs hx hyx hplace)

/-- Both sinks of a pair take a line, or the first refuses. -/
theorem putLines (h : Stand disk sinks) (hcwd : disk.HasCwd) {g : Group} {pair : SinkPair}
    (hg : ∀ form, sinks ⟨g, form⟩ = some (pair.sink form)) (json plain : Bytes) :
    Stand ((pair.putLines json plain).run disk).1
      (sinks.setPair g ((pair.putLines json plain).run disk).2.1) := by
  have hjson := h.putLine hcwd (hg .json) json
  have hcwd' := (pair.json.putLine json).run_hasCwd hcwd
  rw [show pair.sink .json = pair.json from rfl] at hjson
  cases pair.putting json plain disk with
  | refused made sink e hput hrun =>
    rw [hput] at hjson
    rw [hrun]
    rwa [set_json_eq_setPair hg] at hjson
  | taken made last later failure hput hput' hrun =>
    rw [hput] at hjson hcwd'
    have hplain : sinks.set ⟨g, .json⟩ later.json ⟨g, .plain⟩ = some pair.plain := by
      simpa [Sinks.set, SinkPair.sink] using hg .plain
    have hboth := hjson.putLine hcwd' hplain plain
    rw [hput', set_set_eq_setPair] at hboth
    rw [hrun]
    exact hboth

/-! ### Opening -/

/-- A sink is opened at a place of its own, or at that of a device. -/
theorem openSink (h : Stand disk sinks) (hcwd : disk.HasCwd) {path : Path}
    {taken : Path → Place → Prop} (hown : (Sink.create path).OpensApart disk taken)
    (htaken : ∀ y s, sinks y = some s → taken path s.handle.place)
    (hopen : (Sink.create path).run disk = (later, .ok sink)) :
    Stand later (sinks.set x sink) := by
  have hstands := Sink.create_stands hcwd hopen
  refine h.set (Sink.create_updates_of_ok hcwd hopen) hstands fun y s _ hs hplace => ?_
  rw [or_self] at hplace
  rcases hstands with ⟨_, _, _, _, hfile, _⟩ | hdevice
  · have hfree := hown.free (path, sink.handle) (by simp [Sink.create_created_of_ok hopen])
    rw [hopen] at hfree
    exact absurd (hplace ▸ htaken y s hs) (hfree ⟨_, _, _, hfile⟩)
  · rwa [hplace]

/-- A sink is let go of before it was given anything. -/
theorem dropNew (hx : sinks x = none) (h : Stand disk (sinks.set x sink)) (hcwd : disk.HasCwd) :
    Stand (sink.release.run disk).1 sinks := by
  have hset {y : Outlet} {s : Sink} (hs : sinks y = some s) :
      y ≠ x ∧ sinks.set x sink y = some s := by
    have hyx : y ≠ x := by
      rintro rfl
      cases hx.symm.trans hs
    exact ⟨hyx, by simp [Sinks.set, hyx, hs]⟩
  have hu := (sink.release.run_updates hcwd).mono (sink.release_writesTo.touched_sub disk)
  have hrest : Stand disk sinks :=
    ⟨fun y s hs => h.stands y s (hset hs).2,
      fun y z s t hs ht => h.apart y z s t (hset hs).2 (hset ht).2⟩
  apply hrest.frame hu
  intro y s hs hplace
  exact hu.hasDevice (h.apart y x s sink (hset hs).2 (by simp [Sinks.set]) (hset hs).1 hplace)

/-- A pair is opened at places of its own, but for those of devices. -/
theorem openPair (h : Stand disk sinks) (hcwd : disk.HasCwd) {dir : Path} {g : Group}
    (hnew : ∀ form, sinks ⟨g, form⟩ = none) {name : Form → Text}
    (hname : ∀ form, dir.join (Path.ofText (name form)) = Outlet.path dir ⟨g, form⟩)
    (hown : (SinkPair.create dir name).OpensApart disk fun _ => sinks.Uses) :
    match ((SinkPair.create dir name).run disk).2 with
    | .error _ => Stand ((SinkPair.create dir name).run disk).1 sinks
    | .ok pair => Stand ((SinkPair.create dir name).run disk).1 (sinks.setPair g pair) := by
  unfold SinkPair.create at hown
  rw [hname .json, hname .plain] at hown
  have hcwd' := (Sink.create (Outlet.path dir ⟨g, .json⟩)).run_hasCwd hcwd
  have hjsonOpen {made : Disk} {sink : Sink}
      (hjson : (Sink.create (Outlet.path dir ⟨g, .json⟩)).run disk = (made, .ok sink)) :
      Stand made (sinks.set ⟨g, .json⟩ sink) :=
    h.openSink hcwd (hown.left hcwd) (fun y s hs => ⟨y, s, hs, rfl⟩) hjson
  cases SinkPair.opening dir name disk with
  | noJson made e hjson hrun =>
    rw [hrun]
    exact h.frame (Sink.create_updates_of_error hcwd hjson) fun _ _ _ hfalse => hfalse.elim
  | noPlain made last sink e hjson hplain hrun =>
    rw [hname .json] at hjson
    rw [hjson] at hcwd'
    have hfailed := (hjsonOpen hjson).frame (Sink.create_updates_of_error hcwd' hplain)
      fun _ _ _ hfalse => hfalse.elim
    have hlast := (Sink.create (dir.join (Path.ofText (name .plain)))).run_hasCwd hcwd'
    rw [hplain] at hlast
    rw [hrun]
    exact hfailed.dropNew (hnew .json) hlast
  | both made last pair hjson hplain hrun =>
    rw [hname .json] at hjson
    rw [hname .plain] at hplain
    rw [hjson] at hcwd'
    have hrest := (hown.rest hjson).left hcwd'
    rw [Sink.create_created_of_ok hjson] at hrest
    have hboth : Stand last ((sinks.set ⟨g, .json⟩ pair.json).set ⟨g, .plain⟩ pair.plain) := by
      refine (hjsonOpen hjson).openSink hcwd' hrest (fun y s hs => ?_) hplain
      by_cases hy : y = ⟨g, .json⟩
      · obtain rfl : pair.json = s := by simpa [Sinks.set, hy] using hs
        refine .inr ⟨_, List.mem_singleton_self _, fun hpath => ?_, rfl⟩
        cases Outlet.path_injective hpath
      · exact .inl ⟨y, s, by simpa [Sinks.set, hy] using hs, rfl⟩
    rw [set_set_eq_setPair] at hboth
    rw [hrun]
    exact hboth

end Stand

end Sinks

/-! ### Writers -/

/-- A pair that is opened has two files: under the path of each sink, what it writes to. -/
theorem SinkPair.create_created_of_ok {dir : Path} {name : Form → Text} {pair : SinkPair}
    (h : (create dir name).run disk = (later, .ok pair)) (form : Form) :
    (dir.join (Path.ofText (name form)), (pair.sink form).handle) ∈ (create dir name).created disk := by
  cases opening dir name disk with
  | noJson made e hjson hrun =>
    rw [hrun] at h
    cases h
  | noPlain made last sink e hjson hplain hrun =>
    rw [hrun] at h
    cases h
  | both made last pair' hjson hplain hrun hcreated =>
    rw [hrun] at h
    cases h
    rw [hcreated]
    cases form <;> simp [SinkPair.sink]

namespace Writer

variable {w : Writer}

/-- Every open sink writes to a file that was opened by its path. -/
def Listed (dir : Path) (w : Writer) (files : List (Path × Handle)) : Prop :=
  ∀ x sink, w.sinks x = some sink → ∃ f ∈ files, f.1 = x.path dir ∧ f.2.place = sink.handle.place

theorem create_stand (hcwd : disk.HasCwd) {dir : Path} {runName : Text}
    (hown : (create dir runName).OpensApart disk fun _ _ => False)
    (hok : ((create dir runName).run disk).2 = .ok w) :
    w.sinks.Stand ((create dir runName).run disk).1 ∧
      w.Listed dir ((create dir runName).created disk) := by
  unfold create at hown
  cases making dir runName disk with
  | noDir made e hdir hrun =>
    rw [hrun] at hok
    cases hok
  | noPair made last e hdir hpair hrun =>
    rw [hrun] at hok
    cases hok
  | done made last combined hdir hpair hrun hcreated =>
    rw [hrun] at hok ⊢
    cases hok
    have hmade := (Work.makeAllDirs dir).run_hasCwd hcwd
    rw [hdir] at hmade
    have hnone : Sinks.Stand made fun _ => none := ⟨by simp, by simp⟩
    have hapart := (hown.rest hdir).left hmade
    have hopen := hnone.openPair hmade (g := .all) (fun _ => rfl) (Outlet.path_all dir)
      ⟨hapart.apart, fun f _ _ => by simp [Sinks.Uses]⟩
    rw [hpair] at hopen
    refine ⟨?_, ?_⟩
    · rw [sinks_new]
      exact hopen
    · rintro ⟨_ | _, form⟩ sink hx
      · cases hx
      · cases hx
        rw [hcreated]
        exact ⟨_, SinkPair.create_created_of_ok hpair form, Outlet.path_all dir form, rfl⟩

theorem Listed.same {dir : Path} {later : Writer} {files : List (Path × Handle)}
    (h : w.Listed dir files) (hsame : w.Same later) : later.Listed dir files := by
  intro x sink hx
  obtain ⟨s, hs, hst⟩ := hsame.sinks.exists_same hx
  obtain ⟨f, hf, hpath, hplace⟩ := h x s hs
  exact ⟨f, hf, hpath, hplace.trans hst.2.1.symm⟩

theorem openPair_stand (hcwd : disk.HasCwd) (h : w.sinks.Stand disk)
    {files : List (Path × Handle)} (hlisted : w.Listed w.dir files) (n : Nat)
    (hown : (w.openPair n).OpensApart disk fun _ => w.sinks.Uses) :
    match ((w.openPair n).run disk).2 with
    | .error _ => w.sinks.Stand ((w.openPair n).run disk).1
    | .ok pair => (w.setPair n pair).sinks.Stand ((w.openPair n).run disk).1 ∧
        (w.setPair n pair).Listed w.dir (files ++ (w.openPair n).created disk) := by
  unfold Listed openPair at *
  cases hpair : w.pair? n with
  | some pair =>
    have hsame := sinks_setPair_self hpair
    refine ⟨hsame ▸ h, fun x sink hx => ?_⟩
    obtain ⟨f, hf, hfile⟩ := hlisted x sink (hsame ▸ hx)
    exact ⟨f, List.mem_append_left _ hf, hfile⟩
  | none =>
    rw [hpair] at hown
    have hg : ∀ form, w.sinks ⟨.node n, form⟩ = none := by simp [sinks, hpair]
    have hopen := h.openPair hcwd hg (Outlet.path_node w.dir n) hown
    dsimp only at hopen ⊢
    rcases hcreate : (SinkPair.create w.dir (nodeFileName n)).run disk with ⟨later, e | pair⟩
    · rw [hcreate] at hopen
      exact hopen
    · rw [hcreate] at hopen
      dsimp only at hopen ⊢
      rw [← sinks_setPair] at hopen
      refine ⟨hopen, fun x sink hx => ?_⟩
      rw [sinks_setPair, Sinks.setPair] at hx
      split at hx
      next hgroup =>
        cases hx
        obtain ⟨_, form⟩ := x
        cases hgroup
        exact ⟨_, List.mem_append_right _ (SinkPair.create_created_of_ok hcreate form),
          Outlet.path_node w.dir n form, rfl⟩
      next =>
        obtain ⟨f, hf, hfile⟩ := hlisted x sink hx
        exact ⟨f, List.mem_append_left _ hf, hfile⟩

theorem serve_stand (hcwd : disk.HasCwd) {n : Nat} {pair : SinkPair}
    (h : (w.setPair n pair).sinks.Stand disk) (text : Form → Bytes) :
    ((w.serve n pair text).run disk).2.1.sinks.Stand ((w.serve n pair text).run disk).1 := by
  have hg := w.sinks_setPair_node n pair
  have hnode := h.putLines hcwd hg (text .json) (text .plain)
  have hcwd' := (pair.putLines (text .json) (text .plain)).run_hasCwd hcwd
  rw [sinks_setPair, Sinks.setPair_setPair, ← sinks_setPair] at hnode
  cases w.serving disk n pair text with
  | refused last later e hput hrun =>
    rw [hput] at hnode
    rw [hrun]
    exact hnode
  | taken made last later combined failure hput hput' hrun =>
    rw [hput] at hnode hcwd'
    have hall : ∀ form, (w.setPair n later).sinks ⟨.all, form⟩ = some (w.combined.sink form) :=
      fun _ => rfl
    have hboth := Sinks.Stand.putLines hnode hcwd' hall (text .json) (text .plain)
    rw [hput', ← sinks_combined] at hboth
    rw [hrun]
    exact hboth

/-- The step: whatever comes of a write, all sinks stand after it. -/
theorem write_stand (hcwd : disk.HasCwd) (h : w.sinks.Stand disk)
    {files : List (Path × Handle)} (hlisted : w.Listed w.dir files) (e : Entry)
    (hown : (w.write e.record e.source e.node).OpensApart disk fun _ => w.sinks.Uses) :
    let result := (w.write e.record e.source e.node).run disk
    result.2.1.sinks.Stand result.1 ∧
      result.2.1.Listed w.dir (files ++ (w.write e.record e.source e.node).created disk) := by
  rw [write_created]
  rw [write_eq] at hown
  have hopen := openPair_stand hcwd h hlisted e.node (hown.left hcwd)
  have hcwd' := (w.openPair e.node).run_hasCwd hcwd
  cases w.writing disk e with
  | unopened last failure hunopened hrun =>
    rw [hunopened] at hopen
    rw [hrun]
    refine ⟨hopen, fun x sink hx => ?_⟩
    obtain ⟨f, hf, hfile⟩ := hlisted x sink hx
    exact ⟨f, List.mem_append_left _ hf, hfile⟩
  | served made pair hopened hrun =>
    rw [hopened] at hopen hcwd'
    dsimp only at hopen hcwd'
    have hsame := (w.serve_writesTo e.node pair (e.text w.runName)).run made
    rw [hrun]
    exact ⟨serve_stand hcwd' hopen.1 (e.text w.runName), hopen.2.same hsame⟩

end Writer

/-! ### Sessions -/

namespace Session

variable {dir : Path} {runName : Text} {s t : Session}

/-- A writer is created, whatever it opens. -/
inductive Begins (dir : Path) (runName : Text) : Session → Prop where
  | create {disk : Disk} {w : Writer} (hcwd : disk.HasCwd)
    (hok : ((Writer.create dir runName).run disk).2 = .ok w) :
    Begins dir runName ⟨((Writer.create dir runName).run disk).1, w,
      (Writer.create dir runName).created disk, []⟩

/-- What happens to it: calls to write, whatever they open and whatever comes of them, and changes
by others, who leave the files and devices that it has opened as they are. What devices will refuse
may change at any time. -/
inductive Event : Session → Session → Prop where
  | write {s : Session} (e : Entry) : Event s (s.write e)
  | meanwhile {s : Session} {later : Disk} (hcwd : later.HasCwd)
    (hsame : ∀ f ∈ s.files, later.root.at? f.2.place = s.disk.root.at? f.2.place) :
    Event s { s with disk := later }

/-- No two of the paths that were opened led to one regular file. Devices may be shared. -/
def ApartFiles (s : Session) : Prop :=
  ∀ f ∈ s.files, ∀ g ∈ s.files, f.2.place = g.2.place → s.disk.root.HasFile f.2.place → f.1 = g.1

instance (s : Session) : Decidable s.ApartFiles :=
  inferInstanceAs (Decidable (∀ f ∈ s.files, ∀ g ∈ s.files, f.2.place = g.2.place →
    s.disk.root.HasFile f.2.place → f.1 = g.1))

/-- All sinks stand, and each writes to what its path led to. -/
structure Sound (dir : Path) (runName : Text) (s : Session) : Prop where
  cwd : s.disk.HasCwd
  inUse : s.writer.InUse dir runName
  stand : s.writer.sinks.Stand s.disk
  listed : s.writer.Listed dir s.files

theorem Begins.hasCwd (hs : s.Begins dir runName) : s.disk.HasCwd := by
  cases hs with
  | create hcwd _ => exact (Writer.create dir runName).run_hasCwd hcwd

theorem Begins.sound (hs : s.Begins dir runName) (hown : s.ApartFiles) : s.Sound dir runName := by
  cases hs with
  | create hcwd hok =>
    obtain ⟨hstand, hlisted⟩ := Writer.create_stand hcwd ⟨hown, fun _ _ _ => id⟩ hok
    exact ⟨(Writer.create dir runName).run_hasCwd hcwd, .create hok, hstand, hlisted⟩

theorem Event.hasCwd (h : Event s t) (hcwd : s.disk.HasCwd) : t.disk.HasCwd := by
  cases h with
  | write e => exact (s.writer.write e.record e.source e.node).run_hasCwd hcwd
  | meanwhile hcwd' _ => exact hcwd'

/-- Files that are apart in the end were so before. -/
theorem Event.apartFiles (h : Event s t) (hcwd : s.disk.HasCwd) (hown : t.ApartFiles) :
    s.ApartFiles := by
  cases h with
  | write e =>
    intro f hf g hg hplace hfile
    exact hown f (List.mem_append_left _ hf) g (List.mem_append_left _ hg) hplace
      (((s.writer.write e.record e.source e.node).run_updates hcwd).hasFile hfile)
  | meanwhile _ hsame =>
    intro f hf g hg hplace hfile
    refine hown f hf g hg hplace ?_
    unfold Node.HasFile at hfile ⊢
    rw [hsame f hf]
    exact hfile

namespace Sound

variable (h : s.Sound dir runName)
include h

/-- What a call opens is not in use already. -/
theorem opensApart {e : Entry} (hown : (s.write e).ApartFiles) :
    (s.writer.write e.record e.source e.node).OpensApart s.disk fun _ => s.writer.sinks.Uses where
  apart f hf g hg := hown f (List.mem_append_right _ hf) g (List.mem_append_right _ hg)
  free f hf hfile := by
    rintro ⟨x, sink, hx, hplace⟩
    obtain ⟨g, hg, hpath, hplace'⟩ := h.listed x sink hx
    have hfg := hown f (List.mem_append_right _ hf) g (List.mem_append_left _ hg)
      (hplace'.trans hplace).symm hfile
    rw [Writer.write_created] at hf
    obtain ⟨hnone, form, hform⟩ := Writer.openPair_created_path f hf
    rw [hpath, hform, h.inUse.named.dir_eq] at hfg
    obtain rfl := Outlet.path_injective hfg
    simp [Writer.sinks, hnone] at hx

theorem event (hst : Event s t) (hown : t.ApartFiles) : t.Sound dir runName := by
  cases hst with
  | write e =>
    have hdir := h.inUse.named.dir_eq
    obtain ⟨hstand, hlisted⟩ :=
      Writer.write_stand h.cwd h.stand (hdir ▸ h.listed) e (h.opensApart hown)
    exact ⟨(s.writer.write e.record e.source e.node).run_hasCwd h.cwd, h.inUse.session e, hstand,
      hdir ▸ hlisted⟩
  | @meanwhile later hcwd hsame =>
    have hnode {x : Outlet} {sink : Sink} (hx : s.writer.sinks x = some sink) :
        later.root.at? sink.handle.place = s.disk.root.at? sink.handle.place := by
      obtain ⟨f, hf, -, hplace⟩ := h.listed x sink hx
      rw [← hplace]
      exact hsame f hf
    refine ⟨hcwd, h.inUse, ⟨fun x sink hx => ?_, fun x y a b ha hb hne hplace => ?_⟩, h.listed⟩
    · exact (h.stand.stands x sink hx).congr (hnode hx)
    · obtain ⟨kind, hkind⟩ := h.stand.apart x y a b ha hb hne hplace
      exact ⟨kind, (hnode ha).trans hkind⟩

end Sound

/-- The run: whatever happens, a writer stays sound. -/
theorem Begins.reach (hs : s.Begins dir runName) (hst : Relation.ReflTransGen Event s t)
    (hown : t.ApartFiles) : t.Sound dir runName := by
  have hcwd {u : Session} (hsu : Relation.ReflTransGen Event s u) : u.disk.HasCwd := by
    induction hsu with
    | refl => exact hs.hasCwd
    | tail _ hstep ih => exact hstep.hasCwd ih
  induction hst with
  | refl => exact hs.sound hown
  | tail hsu hstep ih => exact (ih (hstep.apartFiles (hcwd hsu) hown)).event hstep hown

end Session

end NodeLogs
