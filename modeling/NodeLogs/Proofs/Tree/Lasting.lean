import NodeLogs.Proofs.Tree.History

/-! What lasts while work goes on. A walk meets nodes that are there, so that it comes to the
same place as long as these keep their kinds, also through links. So a path by which a file was
opened for writing goes on leading to that file. And only opening a file makes it shorter: work
that just writes does not. This holds of every tree. -/

namespace NodeLogs

namespace Node

variable {root later : Node} {place : Place} {followLast : Bool}

/-- Where a spot of a look-up is in a later tree: at what was found, or at the name that was
free if a file has been made there. -/
def Settles (later : Node) (place : Place) : Spot → Prop
  | .found q => q = place
  | .free above name => above ++ [name] = place ∧ later.HasFile place

/-- The walk through the later tree takes the same steps. -/
theorem StepsTo.settles
    (hkinds : ∀ place n, root.at? place = some n → ∃ m, later.at? place = some m ∧ m.kind = n.kind)
    {follow follow' : Place → List Name → Except OsError Spot}
    (hfollow : ∀ here steps s, follow here steps = .ok s → later.Settles place s →
      follow' here steps = .ok (.found place))
    {here : Place} {steps : List Name} {s : Spot}
    (h : root.StepsTo followLast follow here steps s) (hs : later.Settles place s) :
    later.StepsTo followLast follow' here steps (.found place) := by
  induction h with
  | here =>
    cases hs
    exact .here
  | dot _ ih => exact .dot (ih hs)
  | dots _ ih => exact .dots (ih hs)
  | free hstep _ =>
    obtain ⟨rfl, born, bytes, access, hfile⟩ := hs
    exact .last hstep hfile (by simp) (by simp)
  | dir hstep hdir _ ih =>
    obtain ⟨m, hm, hkind⟩ := hkinds _ _ hdir
    obtain ⟨es, rfl⟩ := kind_eq_dir.mp hkind
    exact .dir hstep hm (ih hs)
  | link hstep hlink hgoes hnext =>
    obtain ⟨m, hm, hkind⟩ := hkinds _ _ hlink
    obtain rfl := kind_eq_link.mp hkind
    exact .link hstep hm hgoes (hfollow _ _ _ hnext hs)
  | last hstep hn hdir hlink =>
    cases hs
    obtain ⟨m, hm, hkind⟩ := hkinds _ _ hn
    exact .last hstep hm (ne_dir_of_kind hkind hdir) fun h => ne_link_of_kind hkind (hlink h)

theorem walkLinks_settles
    (hkinds : ∀ place n, root.at? place = some n → ∃ m, later.at? place = some m ∧ m.kind = n.kind)
    (links : Nat) {here : Place} {steps : List Name} {s : Spot}
    (h : root.walkLinks followLast links here steps = .ok s) (hs : later.Settles place s) :
    later.walkLinks followLast links here steps = .ok (.found place) := by
  induction links generalizing here steps s with
  | zero =>
    exact ((StepsTo.of_walkSteps h).settles hkinds (fun _ _ _ h _ => by cases h) hs).walkSteps_eq
  | succ links ih =>
    exact ((StepsTo.of_walkSteps h).settles hkinds (fun _ _ _ h => ih h) hs).walkSteps_eq

end Node

namespace Disk

variable {disk later : Disk} {S : Place → Prop} {p : Path} {place : Place}

theorem Updates.locate_settles (hu : Updates S disk later) {followLast : Bool} {s : Spot}
    (h : disk.locate followLast p = .ok s) (hs : later.root.Settles place s) :
    later.locate followLast p = .ok (.found place) := by
  unfold locate Node.locate at h ⊢
  split at h
  · cases h
  next hzero =>
  split at h
  · cases h
  next hne =>
  rw [if_neg hzero, if_neg hne, hu.cwd]
  exact Node.walkLinks_settles hu.kinds linkLimit h hs

/-- What a path leads to it goes on leading to, while nothing is lost. -/
theorem Updates.locate_found (hu : Updates S disk later) {followLast : Bool}
    (h : disk.locate followLast p = .ok (.found place)) :
    later.locate followLast p = .ok (.found place) :=
  hu.locate_settles h rfl

/-- A path that a file was opened by leads to that file. -/
theorem locate_create (hcwd : disk.HasCwd) {handle : Handle}
    (hok : (disk.create p).2 = .ok handle) :
    (disk.create p).1.locate true p = .ok (.found handle.place) := by
  have hu := create_updates hcwd p
  rcases disk.create_cases p with ⟨e, hc⟩ | ⟨dir, name, hloc, hc⟩ |
    ⟨place, born, bytes, access, hloc, hold, hc⟩ | ⟨place, hloc, -, hc⟩
  all_goals rw [hc] at hok hu ⊢; cases hok
  · obtain ⟨hdir, -⟩ := Node.locate_names hcwd hloc
    exact hu.locate_settles hloc ⟨rfl, _, _, _, Node.at?_put_self hdir name _ []⟩
  · exact hu.locate_found hloc
  · exact hloc

end Disk

/-- The files that work opened are where their paths lead when it has been done. -/
theorem Work.locate_created {α : Type} (w : Work α) {disk : Disk} (hcwd : disk.HasCwd) :
    ∀ f ∈ w.created disk, (w.run disk).1.locate true f.1 = .ok (.found f.2.place) := by
  induction w generalizing disk with
  | done a => simp [created, history]
  | call c next ih =>
    have hcwd' := (Disk.answer_updates hcwd c).hasCwd hcwd
    intro f hf
    obtain ⟨d, hmem, hok⟩ := mem_created.mp hf
    rcases List.mem_cons.mp hmem with heq | hmem
    · cases heq
      exact ((next _).run_updates hcwd').locate_found (Disk.locate_create hcwd hok)
    · exact ih _ hcwd' f (mem_created.mpr ⟨d, hmem, hok⟩)

/-! ### How much files hold -/

/-- What is written over some bytes, or behind them, is not shorter. -/
theorem length_le_splice (old : Bytes) (offset : Nat) (new : Bytes) :
    old.length ≤ (splice old offset new).length := by
  simp only [splice, List.length_append, List.length_take, List.length_replicate, List.length_drop]
  omega

theorem Disk.length_le_write {disk : Disk} (hcwd : disk.HasCwd) (h : Handle) (bs : Bytes)
    {place : Place} {bytes : Bytes} (hbytes : disk.bytesAt? place = some bytes) :
    ∃ later, (disk.write h bs).1.bytesAt? place = some later ∧ bytes.length ≤ later.length := by
  by_cases hplace : place = h.place
  · subst hplace
    rcases disk.write_cases h bs with ⟨hsame, -⟩ | ⟨old, access, taken, writes, hold, -, hw⟩
    · exact ⟨bytes, by rw [hsame, hbytes], Nat.le_refl _⟩
    · have hold' : disk.bytesAt? h.place = some old := bytesAt?_eq_some.mpr ⟨_, _, hold⟩
      cases hbytes.symm.trans hold'
      refine ⟨_, ?_, length_le_splice bytes h.offset (bs.take taken)⟩
      rw [hw]
      exact bytesAt?_eq_some.mpr ⟨_, _, Node.at?_put_over hcwd.top hold (by simp) _⟩
  · have hu := write_updates hcwd h bs
    refine ⟨bytes, ?_, Nat.le_refl _⟩
    rw [hu.bytesAt? (by simpa [touched] using hplace), hbytes]

/-- Work that only writes makes no file shorter. -/
theorem Work.WritesTo.length_le {α : Type} {S : Place → Prop} {Q : α → Prop} {w : Work α}
    (hw : w.WritesTo S Q) {disk : Disk} (hcwd : disk.HasCwd) {place : Place} {bytes : Bytes}
    (hbytes : disk.bytesAt? place = some bytes) :
    ∃ later, (w.run disk).1.bytesAt? place = some later ∧ bytes.length ≤ later.length := by
  unfold WritesTo at hw
  induction hw generalizing disk bytes with
  | done => exact ⟨bytes, hbytes, Nat.le_refl _⟩
  | @call c next hc _ ih =>
    obtain ⟨h, bs, rfl, -⟩ := hc
    obtain ⟨mid, hmid, hle⟩ := Disk.length_le_write hcwd h bs hbytes
    obtain ⟨later, hlater, hle'⟩ :=
      ih disk trivial ((Disk.answer_updates hcwd (.write h bs)).hasCwd hcwd) hmid
    exact ⟨later, hlater, Nat.le_trans hle hle'⟩

end NodeLogs
