import NodeLogs.Proofs.Output.Outlets

/-! What writers do with entries. A writer serves the outlets of an entry's node
and those of all nodes, in this order. If the sinks of the node cannot be opened,
no outlet gets anything; if one refuses, those before it have got the line already
and keep it. -/

namespace NodeLogs

/-- A record that is kept, with the log and the node that it comes from. -/
structure Entry where
  record : Record
  source : Path
  node : Nat

namespace Entry

variable (runName : Text) (e : Entry)

/-- The entry as the files of a run have it. -/
def text : Form → Bytes
  | .json => Utf8.encode (e.record.jsonFrom ⟨e.source.display, runName, e.node⟩)
  | .plain => Utf8.encode e.record.plain

def line (form : Form) : Bytes :=
  e.text runName form ++ [0x0A]

/-- The outlets of an entry, in the order in which they are served. -/
def outlets : List Outlet :=
  [⟨.node e.node, .json⟩, ⟨.node e.node, .plain⟩, ⟨.all, .json⟩, ⟨.all, .plain⟩]

theorem outlets_nodup : e.outlets.Nodup := by
  simp [outlets]

end Entry

namespace SinkPair

/-- Another state of one pair of sinks. -/
def Same (pair later : SinkPair) : Prop :=
  ∀ form, (pair.sink form).Same (later.sink form)

theorem putLines_writesTo (pair : SinkPair) (json plain : Bytes) :
    (pair.putLines json plain).WritesTo (fun place => ∃ form, place = (pair.sink form).handle.place)
      fun r => pair.Same r.1 := by
  unfold putLines
  refine ((pair.json.putLine_writesTo json).mono (fun place h => ⟨.json, h⟩) fun _ => id).bind
    fun r hr => ?_
  obtain ⟨later, e⟩ := r
  cases e with
  | some e =>
    refine .pure fun form => ?_
    cases form with
    | json => exact hr
    | plain => exact .refl _
  | none =>
    refine ((pair.plain.putLine_writesTo plain).mono (fun place h => ⟨.plain, h⟩) fun _ => id).bind
      fun r' hr' => .pure fun form => ?_
    cases form with
    | json => exact hr
    | plain => exact hr'

theorem putLines_ok {pair : SinkPair} {json plain : Bytes} {disk : Disk}
    (h : (pair.putLines json plain).Granted disk) :
    ((pair.putLines json plain).run disk).2.2 = none := by
  unfold putLines at h
  cases pair.putting json plain disk with
  | refused made sink e hjson =>
    have hnone := Sink.putLine_ok (Work.granted_bind.mp h).1
    rw [hjson] at hnone
    cases hnone
  | taken made last later failure hjson hplain hrun =>
    have hrest := ((Work.granted_rest hjson).mp h).2
    have hnone := Sink.putLine_ok (Work.granted_bind.mp hrest).1
    rw [hplain] at hnone
    rw [hrun]
    exact hnone

end SinkPair

/-! ### The files of open sinks -/

namespace Sinks

variable {sinks : Sinks} {dir : Path} {files : List (Path × Handle)} {g : Group} {pair : SinkPair}

/-- The open sinks write to these files. -/
def WriteTo (sinks : Sinks) (dir : Path) (files : List (Path × Handle)) : Prop :=
  ∀ p place, (∃ h, (p, h) ∈ files ∧ h.place = place) ↔
    ∃ x sink, sinks x = some sink ∧ x.path dir = p ∧ sink.handle.place = place

/-- The same sinks are open, in the states that they are in now. -/
def Same (sinks later : Sinks) : Prop :=
  ∀ x, Option.Rel Sink.Same (sinks x) (later x)

theorem Same.trans {later last : Sinks} (h : sinks.Same later) (h' : later.Same last) :
    sinks.Same last := by
  intro x
  have hx := h x
  have hx' := h' x
  cases hs : sinks x <;> cases ht : later x <;> cases hu : last x <;> rw [hs, ht] at hx <;>
    rw [ht, hu] at hx' <;> cases hx <;> cases hx' <;> constructor
  next hst htu => exact hst.trans htu

theorem Same.isSome_eq {later : Sinks} (h : sinks.Same later) (x : Outlet) :
    (later x).isSome = (sinks x).isSome := by
  have hx := h x
  generalize sinks x = s at hx
  generalize later x = t at hx
  cases hx <;> rfl

theorem Same.exists_same {later : Sinks} (h : sinks.Same later) {x : Outlet} {t : Sink}
    (ht : later x = some t) : ∃ s, sinks x = some s ∧ s.Same t := by
  have hx := h x
  rw [ht] at hx
  cases hs : sinks x with
  | none =>
    rw [hs] at hx
    cases hx
  | some s =>
    rw [hs] at hx
    cases hx with
    | some hsame => exact ⟨s, rfl, hsame⟩

/-- Sinks that are the same have the same files. -/
theorem Same.place {later : Sinks} (h : sinks.Same later) {x : Outlet} {t : Sink}
    (ht : later x = some t) : ∃ s, sinks x = some s ∧ s.handle.place = t.handle.place := by
  obtain ⟨s, hs, hst⟩ := h.exists_same ht
  exact ⟨s, hs, hst.2.1.symm⟩

theorem setPair_same (hg : ∀ form, sinks ⟨g, form⟩ = some (pair.sink form)) {later : SinkPair}
    (hsame : pair.Same later) : sinks.Same (sinks.setPair g later) := by
  rintro ⟨g', form⟩
  by_cases hgg : g' = g
  · subst hgg
    rw [hg form]
    simpa [setPair] using hsame form
  · have hother : sinks.setPair g later ⟨g', form⟩ = sinks ⟨g', form⟩ := by simp [setPair, hgg]
    rw [hother]
    cases sinks ⟨g', form⟩ with
    | none => exact .none
    | some s => exact .some (.refl s)

theorem WriteTo.same (h : sinks.WriteTo dir files) {later : Sinks} (hsame : sinks.Same later) :
    later.WriteTo dir files := by
  intro p place
  rw [h p place]
  constructor
  · rintro ⟨x, s, hs, rfl, rfl⟩
    have hx := hsame x
    rw [hs] at hx
    cases ht : later x with
    | none => rw [ht] at hx; cases hx
    | some t =>
      obtain ⟨s', hs', hplace⟩ := hsame.place ht
      rw [hs] at hs'
      cases hs'
      exact ⟨x, t, ht, rfl, hplace.symm⟩
  · rintro ⟨x, t, ht, rfl, rfl⟩
    obtain ⟨s, hs, hplace⟩ := hsame.place ht
    exact ⟨x, s, hs, rfl, hplace⟩

theorem WriteTo.setPair_new (h : sinks.WriteTo dir files) (hg : ∀ form, sinks ⟨g, form⟩ = none)
    (hname : ∀ form, (pair.sink form).path = Outlet.path dir ⟨g, form⟩) :
    (sinks.setPair g pair).WriteTo dir
      (files ++ [(pair.json.path, pair.json.handle), (pair.plain.path, pair.plain.handle)]) := by
  intro p place
  constructor
  · rintro ⟨handle, hmem, rfl⟩
    rcases List.mem_append.mp hmem with hmem | hmem
    · obtain ⟨⟨g', form⟩, sink, hx, rfl, hplace⟩ := (h p handle.place).mp ⟨handle, hmem, rfl⟩
      have hgg : g' ≠ g := by
        rintro rfl
        rw [hg form] at hx
        cases hx
      exact ⟨⟨g', form⟩, sink, by simp [setPair, hgg, hx], rfl, hplace⟩
    · simp only [List.mem_cons, Prod.mk.injEq, List.not_mem_nil, or_false] at hmem
      rcases hmem with ⟨rfl, rfl⟩ | ⟨rfl, rfl⟩
      · exact ⟨⟨g, .json⟩, pair.json, by simp [setPair, SinkPair.sink], (hname .json).symm, rfl⟩
      · exact ⟨⟨g, .plain⟩, pair.plain, by simp [setPair, SinkPair.sink], (hname .plain).symm, rfl⟩
  · rintro ⟨⟨g', form⟩, sink, hx, rfl, rfl⟩
    by_cases hgg : g' = g
    · subst hgg
      obtain rfl : _ = sink := by simpa [setPair] using hx
      rw [← hname form]
      cases form
      · exact ⟨pair.json.handle, by simp [SinkPair.sink], rfl⟩
      · exact ⟨pair.plain.handle, by simp [SinkPair.sink], rfl⟩
    · obtain ⟨handle, hmem, hplace⟩ := (h _ _).mpr
        ⟨⟨g', form⟩, sink, by simpa [setPair, hgg] using hx, rfl, rfl⟩
      exact ⟨handle, List.mem_append_left _ hmem, hplace⟩

end Sinks

/-! ### Writers -/

namespace Writer

/-- The open sinks of a writer. -/
def sinks (w : Writer) : Sinks
  | ⟨.node n, form⟩ => (w.pair? n).map (·.sink form)
  | ⟨.all, form⟩ => some (w.combined.sink form)

theorem sinks_of_pair? {w : Writer} {n : Nat} {pair : SinkPair} (h : w.pair? n = some pair)
    (form : Form) : w.sinks ⟨.node n, form⟩ = some (pair.sink form) := by
  simp [sinks, h]

/-- A new writer has the sinks of all nodes. -/
theorem sinks_new (dir : Path) (runName : Text) (combined : SinkPair) :
    ({ dir, runName, combined } : Writer).sinks = Sinks.setPair (fun _ => none) .all combined := by
  funext ⟨g, form⟩
  cases g <;> simp [sinks, Sinks.setPair, pair?]

theorem sinks_setPair (w : Writer) (n : Nat) (pair : SinkPair) :
    (w.setPair n pair).sinks = w.sinks.setPair (.node n) pair := by
  funext ⟨g, form⟩
  cases g with
  | node m =>
    by_cases hm : m = n <;> simp [sinks, Sinks.setPair, pair?_setPair, hm]
  | all => simp [sinks, Sinks.setPair, setPair]

/-- Sinks that are open already are kept as they are. -/
theorem sinks_setPair_self {w : Writer} {n : Nat} {pair : SinkPair} (h : w.pair? n = some pair) :
    (w.setPair n pair).sinks = w.sinks := by
  rw [sinks_setPair, Sinks.setPair_of_eq (sinks_of_pair? h)]

theorem sinks_setPair_node (w : Writer) (n : Nat) (pair : SinkPair) (form : Form) :
    (w.setPair n pair).sinks ⟨.node n, form⟩ = some (pair.sink form) := by
  simp [sinks_setPair, Sinks.setPair]

theorem sinks_combined (w : Writer) (combined : SinkPair) :
    ({ w with combined } : Writer).sinks = w.sinks.setPair .all combined := by
  funext ⟨g, form⟩
  cases g <;> simp [sinks, Sinks.setPair, pair?]

/-- Every sink of the writer has a file of its own and was given the bytes of its outlet. -/
structure Holds (disk : Disk) (w : Writer) (given : Outlet → Bytes) : Prop where
  sinks : Sinks.Hold disk w.dir w.sinks given
  once : (w.nodes.map Prod.fst).Nodup

variable {disk : Disk} {w : Writer} {given : Outlet → Bytes}

theorem once_setPair (h : (w.nodes.map Prod.fst).Nodup) (n : Nat) (pair : SinkPair) :
    ((w.setPair n pair).nodes.map Prod.fst).Nodup := by
  show ((Keyed.set n pair w.nodes).map Prod.fst).Nodup
  rw [Keyed.keys_set]
  split
  · exact h
  next hnew =>
    have hnew : n ∉ w.nodes.map Prod.fst := by simpa using hnew
    refine List.nodup_append.mpr ⟨h, by simp, fun a ha b hb hab => hnew ?_⟩
    rw [List.mem_singleton.mp hb] at hab
    exact hab ▸ ha

theorem keys_setPair (w : Writer) (n : Nat) (pair later : SinkPair) :
    (w.setPair n later).nodes.map Prod.fst = (w.setPair n pair).nodes.map Prod.fst := by
  simp [setPair, Keyed.keys_set]

/-- The sinks of a node are opened where there are none. -/
theorem openPair_holds (hcwd : disk.HasCwd) (h : w.Holds disk given) (n : Nat)
    (hown : (w.openPair n).OpensOwn disk w.sinks.UsesElse) :
    match ((w.openPair n).run disk).2 with
    | .error _ => w.Holds ((w.openPair n).run disk).1 given ∧
        ∀ e ∈ (w.openPair n).created disk, ((w.openPair n).run disk).1.bytesAt? e.2.place = some []
    | .ok pair => (w.setPair n pair).Holds ((w.openPair n).run disk).1 given ∧
        ∀ files, w.sinks.WriteTo w.dir files →
          (w.setPair n pair).sinks.WriteTo w.dir (files ++ (w.openPair n).created disk) := by
  unfold openPair at hown ⊢
  cases hpair : w.pair? n with
  | some pair =>
    have hsame := sinks_setPair_self hpair
    refine ⟨⟨?_, once_setPair h.once n pair⟩, fun files hfiles => ?_⟩
    · rw [hsame]
      exact h.sinks
    · simpa [hsame] using hfiles
  | none =>
    rw [hpair] at hown
    have hg : ∀ form, w.sinks ⟨.node n, form⟩ = none := by simp [sinks, hpair]
    have hopen := h.sinks.openPair hcwd hg (nodeFileName n) (Outlet.path_node w.dir n) hown
    simp only at hopen ⊢
    generalize (SinkPair.create w.dir (nodeFileName n)).run disk = result at hopen ⊢
    obtain ⟨disk', e | pair⟩ := result
    · exact ⟨⟨hopen.1, h.once⟩, hopen.2⟩
    · obtain ⟨hholds, hcreated⟩ := hopen
      refine ⟨⟨?_, once_setPair h.once n pair⟩, fun files hfiles => ?_⟩
      · rw [sinks_setPair]
        exact hholds
      · rw [hcreated, sinks_setPair]
        refine hfiles.setPair_new hg fun form => hholds.named _ _ ?_
        simp [Sinks.setPair]

theorem openPair_error {n : Nat} {failure : SinkError}
    (h : ((w.openPair n).run disk).2 = .error failure) : w.pair? n = none := by
  unfold openPair at h
  cases hpair : w.pair? n with
  | none => rfl
  | some pair =>
    rw [hpair] at h
    cases h

/-- A new writer has sinks for all nodes and none for any single one. -/
theorem create_holds (hcwd : disk.HasCwd) {dir : Path} {runName : Text} {taken : Path → Place → Prop}
    (hown : (create dir runName).OpensOwn disk taken)
    (hok : ((create dir runName).run disk).2 = .ok w) :
    w.dir = dir ∧ w.runName = runName ∧ w.nodes = [] ∧
      w.Holds ((create dir runName).run disk).1 (fun _ => []) ∧
      w.sinks.WriteTo dir ((create dir runName).created disk) := by
  unfold create at hown
  cases making dir runName disk with
  | noDir made e hdir hrun =>
    rw [hrun] at hok
    cases hok
  | noPair made last e hdir hpair hrun =>
    rw [hrun] at hok
    cases hok
  | done made last combined hdir hpair hrun hcreated =>
    rw [hrun] at hok ⊢
    cases hok
    have hmade := (Work.makeAllDirs dir).run_hasCwd hcwd
    rw [hdir] at hmade
    have hnone : Sinks.Hold made dir (fun _ => none) fun _ => [] := by
      constructor <;> simp
    have hopen := hnone.openPair hmade (g := .all) (fun _ => rfl) combinedFileName
      (Outlet.path_all dir)
      ((hown.rest hdir).left.mono fun p place h => by simp [Sinks.UsesElse] at h)
    rw [hpair] at hopen
    obtain ⟨hholds, hfiles⟩ := hopen
    have hempty : Sinks.WriteTo (fun _ => none) dir [] := by simp [Sinks.WriteTo]
    refine ⟨rfl, rfl, rfl, ⟨?_, by simp⟩, ?_⟩
    · rw [sinks_new]
      exact hholds
    · rw [sinks_new, hcreated, hfiles]
      refine hempty.setPair_new (fun _ => rfl) fun form => hholds.named _ _ ?_
      simp [Sinks.setPair]

/-! ### Writes -/

/-- What is left of a write when the sinks of the node are open. -/
def serve (w : Writer) (n : Nat) (pair : SinkPair) (text : Form → Bytes) :
    Work (Writer × Option SinkError) := do
  match ← pair.putLines (text .json) (text .plain) with
  | (pair, some e) => return (w.setPair n pair, some e)
  | (pair, none) =>
    let (combined, failure) ← w.combined.putLines (text .json) (text .plain)
    return ({ w.setPair n pair with combined }, failure)

theorem write_eq (w : Writer) (e : Entry) :
    w.write e.record e.source e.node = w.openPair e.node >>= fun
      | .error failure => pure (w, some failure)
      | .ok pair => w.serve e.node pair (e.text w.runName) := by
  unfold write
  congr 1

section Courses

variable (w : Writer) (disk : Disk)

/-- How the rest of a write can go: a sink of the node refuses the line; or those of the node take
it, and those of all nodes get it, whatever comes of that. -/
inductive Serving (n : Nat) (pair : SinkPair) (text : Form → Bytes) : Prop
  | refused (last : Disk) (later : SinkPair) (e : SinkError)
    (hnode : (pair.putLines (text .json) (text .plain)).run disk = (last, later, some e))
    (hrun : (w.serve n pair text).run disk = (last, w.setPair n later, some e))
  | taken (made last : Disk) (later combined : SinkPair) (failure : Option SinkError)
    (hnode : (pair.putLines (text .json) (text .plain)).run disk = (made, later, none))
    (hall : (w.combined.putLines (text .json) (text .plain)).run made = (last, combined, failure))
    (hrun : (w.serve n pair text).run disk = (last, { w.setPair n later with combined }, failure))

theorem serving (n : Nat) (pair : SinkPair) (text : Form → Bytes) :
    w.Serving disk n pair text := by
  rcases hnode : (pair.putLines (text .json) (text .plain)).run disk with ⟨made, later, _ | e⟩
  · rcases hall : (w.combined.putLines (text .json) (text .plain)).run made with
      ⟨last, combined, failure⟩
    exact .taken made last later combined failure hnode hall
      (by simp [serve, hnode, hall, -bind_pure_comp])
  · exact .refused made later e hnode (by simp [serve, hnode])

/-- How a write can go: the sinks of the node cannot be opened, or they get the line. -/
inductive Writing (e : Entry) : Prop
  | unopened (last : Disk) (failure : SinkError)
    (hopen : (w.openPair e.node).run disk = (last, .error failure))
    (hrun : (w.write e.record e.source e.node).run disk = (last, w, some failure))
  | served (made : Disk) (pair : SinkPair)
    (hopen : (w.openPair e.node).run disk = (made, .ok pair))
    (hrun : (w.write e.record e.source e.node).run disk =
      (w.serve e.node pair (e.text w.runName)).run made)

theorem writing (e : Entry) : w.Writing disk e := by
  rcases hopen : (w.openPair e.node).run disk with ⟨made, failure | pair⟩
  · exact .unopened made failure hopen (by rw [write_eq, Work.run_rest hopen]; rfl)
  · exact .served made pair hopen (by rw [write_eq, Work.run_rest hopen])

end Courses

/-- A writer with the same sinks, in the states that they are in now. -/
structure Same (w later : Writer) : Prop where
  dir : later.dir = w.dir
  runName : later.runName = w.runName
  keys : later.nodes.map Prod.fst = w.nodes.map Prod.fst
  sinks : w.sinks.Same later.sinks

theorem serve_writesTo (w : Writer) (n : Nat) (pair : SinkPair) (text : Form → Bytes) :
    (w.serve n pair text).WritesTo (w.setPair n pair).sinks.Uses
      fun r => (w.setPair n pair).Same r.1 := by
  have hg := w.sinks_setPair_node n pair
  have hall : ∀ form, (w.setPair n pair).sinks ⟨.all, form⟩ = some (w.combined.sink form) :=
    fun _ => rfl
  unfold serve
  refine ((pair.putLines_writesTo _ _).mono ?_ fun _ => id).bind fun r hr => ?_
  · rintro _ ⟨form, rfl⟩
    exact ⟨_, _, hg form, rfl⟩
  have hsinks : (w.setPair n pair).sinks.Same (w.setPair n r.1).sinks := by
    have := Sinks.setPair_same hg hr
    rwa [sinks_setPair, Sinks.setPair_setPair, ← sinks_setPair, ← sinks_setPair] at this
  obtain ⟨later, failure⟩ := r
  cases failure with
  | some failure => exact .pure ⟨rfl, rfl, keys_setPair w n pair later, hsinks⟩
  | none =>
    refine ((w.combined.putLines_writesTo _ _).mono ?_ fun _ => id).bind fun r' hr' => ?_
    · rintro _ ⟨form, rfl⟩
      exact ⟨_, _, hall form, rfl⟩
    · refine .pure ⟨rfl, rfl, keys_setPair w n pair later, hsinks.trans ?_⟩
      have hcombined : ∀ form, (w.setPair n later).sinks ⟨.all, form⟩ =
          some (w.combined.sink form) := fun _ => rfl
      have := Sinks.setPair_same hcombined hr'
      rwa [← sinks_combined] at this

/-- The outlets get the line in turns up to one that refuses. -/
theorem serve_holds (hcwd : disk.HasCwd) {n : Nat} {pair : SinkPair}
    (h : (w.setPair n pair).Holds disk given) (text : Form → Bytes) :
    ∃ later, Served (text · ++ [0x0A])
        [⟨.node n, .json⟩, ⟨.node n, .plain⟩, ⟨.all, .json⟩, ⟨.all, .plain⟩] given later
        ((w.serve n pair text).run disk).2.2.isNone ∧
      ((w.serve n pair text).run disk).2.1.Holds ((w.serve n pair text).run disk).1 later := by
  have hg := w.sinks_setPair_node n pair
  obtain ⟨given', hserved, hholds⟩ := h.sinks.putLines hcwd hg text
  have hcwd' := (pair.putLines (text .json) (text .plain)).run_hasCwd hcwd
  rw [sinks_setPair, Sinks.setPair_setPair, ← sinks_setPair] at hholds
  cases w.serving disk n pair text with
  | refused last later e hnode hrun =>
    rw [hnode] at hserved hholds
    rw [hrun]
    exact ⟨given', hserved.append_of_refused _, hholds, keys_setPair w n pair later ▸ h.once⟩
  | taken made last later combined failure hnode hall hrun =>
    rw [hnode] at hserved hholds hcwd'
    have hall' : ∀ form, (w.setPair n later).sinks ⟨.all, form⟩ = some (w.combined.sink form) :=
      fun _ => rfl
    obtain ⟨given'', hserved', hholds'⟩ := Sinks.Hold.putLines hholds hcwd' hall' text
    rw [hall] at hserved' hholds'
    rw [← sinks_combined] at hholds'
    rw [hrun]
    exact ⟨given'', hserved.append hserved', hholds', keys_setPair w n pair later ▸ h.once⟩

/-- A write opens nothing but the sinks of the node. -/
theorem write_created (w : Writer) (e : Entry) (disk : Disk) :
    (w.write e.record e.source e.node).created disk = (w.openPair e.node).created disk := by
  rw [write_eq]
  cases w.writing disk e with
  | unopened last failure hopen =>
    rw [Work.created_rest hopen]
    simp
  | served made pair hopen =>
    rw [Work.created_rest hopen]
    simp [(w.serve_writesTo e.node pair (e.text w.runName)).created_eq]

/-- Opening touches the files that it opens. -/
theorem openPair_touched {n : Nat} : ∀ place ∈ (w.openPair n).touched disk,
    ∃ f ∈ (w.openPair n).created disk, f.2.place = place := by
  unfold openPair
  cases w.pair? n with
  | some pair => simp
  | none => exact SinkPair.create_touched

/-- A write touches files of open sinks and files that it opens. -/
theorem write_touched (hcwd : disk.HasCwd) (h : w.Holds disk given) (e : Entry)
    (hown : (w.write e.record e.source e.node).OpensOwn disk w.sinks.UsesElse)
    {files : List (Path × Handle)} (hfiles : w.sinks.WriteTo w.dir files) :
    ∀ place ∈ (w.write e.record e.source e.node).touched disk,
      ∃ f ∈ files ++ (w.write e.record e.source e.node).created disk, f.2.place = place := by
  intro place hplace
  rw [write_created]
  rw [write_eq] at hown hplace
  rw [Work.touched_bind, List.mem_append] at hplace
  rcases hplace with hplace | hplace
  · obtain ⟨f, hf, heq⟩ := openPair_touched place hplace
    exact ⟨f, List.mem_append_right _ hf, heq⟩
  · have hopen := openPair_holds hcwd h e.node hown.left
    cases w.writing disk e with
    | unopened last failure hunopened =>
      rw [hunopened] at hplace
      simp at hplace
    | served made pair hopened =>
      rw [hopened] at hopen hplace
      obtain ⟨x, sink, hx, rfl⟩ := (w.serve_writesTo e.node pair _).touched_sub made place hplace
      obtain ⟨handle, hmem, heq⟩ := (hopen.2 files hfiles _ _).mpr ⟨x, sink, hx, rfl, rfl⟩
      exact ⟨_, hmem, heq⟩

theorem openPair_opensNoLog (w : Writer) (n : Nat) : (w.openPair n).OpensNoLog := by
  unfold openPair
  cases w.pair? n with
  | some pair => exact .pure trivial
  | none => exact SinkPair.create_opensNoLog _ _

theorem write_opensNoLog (w : Writer) (r : Record) (source : Path) (n : Nat) :
    (w.write r source n).OpensNoLog := by
  rw [show w.write r source n = _ from w.write_eq ⟨r, source, n⟩]
  refine Work.Stays.bind (w.openPair_opensNoLog n) fun opened _ => ?_
  cases opened with
  | error e => exact .pure trivial
  | ok pair => exact (w.serve_writesTo n pair _).opensNoLog

/-- A write where a sink cannot be opened gives nothing to any outlet; otherwise the
outlets of the entry get its line in turns, up to one that refuses. -/
theorem write_holds (hcwd : disk.HasCwd) (h : w.Holds disk given) (e : Entry)
    (hown : (w.write e.record e.source e.node).OpensOwn disk w.sinks.UsesElse) :
    let result := (w.write e.record e.source e.node).run disk
    (∃ failure, result.2 = (w, some failure) ∧ w.pair? e.node = none ∧ w.Holds result.1 given ∧
      ∀ opened ∈ (w.write e.record e.source e.node).created disk,
        result.1.bytesAt? opened.2.place = some []) ∨
    ∃ later, Served (e.line w.runName) e.outlets given later result.2.2.isNone ∧
      result.2.1.Holds result.1 later ∧ result.2.1.dir = w.dir ∧
      result.2.1.runName = w.runName ∧
      (∀ x, (result.2.1.sinks x).isSome ↔ (w.sinks x).isSome ∨ x.group = .node e.node) ∧
      ∀ files, w.sinks.WriteTo w.dir files → result.2.1.sinks.WriteTo w.dir
        (files ++ (w.write e.record e.source e.node).created disk) := by
  rw [write_created]
  rw [write_eq] at hown
  have hopen := openPair_holds hcwd h e.node hown.left
  have hcwd' := (w.openPair e.node).run_hasCwd hcwd
  cases w.writing disk e with
  | unopened last failure hunopened hrun =>
    rw [hunopened] at hopen
    rw [hrun]
    exact .inl ⟨failure, rfl, openPair_error (congrArg Prod.snd hunopened), hopen⟩
  | served made pair hopened hrun =>
    rw [hopened] at hopen hcwd'
    dsimp only at hopen hcwd'
    obtain ⟨hholds, hfiles⟩ := hopen
    obtain ⟨later, hserved, hlater⟩ := serve_holds hcwd' hholds (e.text w.runName)
    have hsame := (w.serve_writesTo e.node pair (e.text w.runName)).run made
    rw [hrun]
    refine .inr ⟨later, hserved, hlater, hsame.dir, hsame.runName, fun x => ?_,
      fun files h => (hfiles files h).same hsame.sinks⟩
    rw [hsame.sinks.isSome_eq, sinks_setPair]
    by_cases hx : x.group = .node e.node <;> simp [Sinks.setPair, hx]

/-! ### Where nothing is refused -/

theorem openPair_ok {n : Nat} (h : (w.openPair n).Granted disk) :
    ∃ pair, ((w.openPair n).run disk).2 = .ok pair := by
  unfold openPair at h ⊢
  cases hpair : w.pair? n with
  | some pair => exact ⟨pair, rfl⟩
  | none =>
    rw [hpair] at h
    exact SinkPair.create_ok h

theorem serve_ok {n : Nat} {pair : SinkPair} {text : Form → Bytes}
    (h : (w.serve n pair text).Granted disk) : ((w.serve n pair text).run disk).2.2 = none := by
  unfold serve at h
  cases w.serving disk n pair text with
  | refused last later e hnode =>
    have hnone := SinkPair.putLines_ok (Work.granted_bind.mp h).1
    rw [hnode] at hnone
    cases hnone
  | taken made last later combined failure hnode hall hrun =>
    have hrest := ((Work.granted_rest hnode).mp h).2
    have hnone := SinkPair.putLines_ok (Work.granted_bind.mp hrest).1
    rw [hall] at hnone
    rw [hrun]
    exact hnone

theorem write_ok {e : Entry} (h : (w.write e.record e.source e.node).Granted disk) :
    ((w.write e.record e.source e.node).run disk).2.2 = none := by
  rw [write_eq] at h
  cases w.writing disk e with
  | unopened last failure hopen =>
    obtain ⟨pair, hok⟩ := openPair_ok (Work.granted_bind.mp h).1
    rw [hopen] at hok
    cases hok
  | served made pair hopen hrun =>
    rw [hrun]
    exact serve_ok ((Work.granted_rest hopen).mp h).2

/-- An entry whose sinks are open is written if no write is refused. -/
theorem write_ok_of_accepted {e : Entry} {pair : SinkPair}
    (hok : (w.write e.record e.source e.node).Accepted disk)
    (hopen : ((w.openPair e.node).run disk).2 = .ok pair) :
    ((w.write e.record e.source e.node).run disk).2.2 = none := by
  rw [write_eq] at hok
  cases w.writing disk e with
  | unopened last failure hunopened =>
    rw [hunopened] at hopen
    cases hopen
  | served made pair' hopened hrun =>
    have hserve := ((Work.accepted_rest hopened).mp hok).2
    rw [hrun]
    exact serve_ok ((w.serve_writesTo e.node pair' _).granted hserve)

/-- Where the sinks of an entry cannot be opened, the write opens nothing but a file for JSON. -/
theorem write_created_of_error {e : Entry} {failure : SinkError}
    (hopen : ((w.openPair e.node).run disk).2 = .error failure) :
    ∀ f ∈ (w.write e.record e.source e.node).created disk,
      f.1 = Outlet.path w.dir ⟨.node e.node, .json⟩ := by
  have hnew := openPair_error hopen
  rw [write_created]
  unfold openPair at hopen ⊢
  rw [hnew] at hopen ⊢
  exact SinkPair.create_created_of_error hopen

end Writer

end NodeLogs
