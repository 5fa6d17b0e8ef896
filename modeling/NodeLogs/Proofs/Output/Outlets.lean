import NodeLogs.Proofs.Output.Names
import NodeLogs.Proofs.Output.Steps

/-! Sinks at the outlets of a run. Sinks that are open at outlets are told apart by their files, so that
what one of them is given is nothing to the others. Outlets are served one after
another, and the first refusal ends it. -/

namespace NodeLogs

/-! ### Serving -/

/-- What outlets were given, with a piece on top for one of them. -/
def give (given : Outlet → Bytes) (x : Outlet) (piece : Bytes) : Outlet → Bytes :=
  fun y => if y = x then given y ++ piece else given y

/-- Outlets are given their lines one after another; one that refuses takes a part
of its line and ends it. The last argument says whether all were served. -/
inductive Served (line : Form → Bytes) :
    List Outlet → (Outlet → Bytes) → (Outlet → Bytes) → Bool → Prop where
  | none (given) : Served line [] given given true
  | refused (x xs given part rest) (hline : line x.form = part ++ rest) (hrest : rest ≠ []) :
    Served line (x :: xs) given (give given x part) false
  | next {x xs given later ok} (h : Served line xs (give given x (line x.form)) later ok) :
    Served line (x :: xs) given later ok

namespace Served

variable {line : Form → Bytes} {xs ys : List Outlet} {given later last : Outlet → Bytes} {ok : Bool}

theorem append (h : Served line xs given later true) (h' : Served line ys later last ok) :
    Served line (xs ++ ys) given last ok := by
  generalize hok : true = served at h
  induction h with
  | none => exact h'
  | refused => cases hok
  | next h ih => exact .next (ih h' hok)

theorem append_of_refused (h : Served line xs given later false) (ys : List Outlet) :
    Served line (xs ++ ys) given later false := by
  generalize hok : false = served at h
  induction h with
  | none => cases hok
  | refused x xs given part rest hline hrest => exact .refused x _ _ part rest hline hrest
  | next h ih => exact .next (ih hok)

/-- Nothing that was given is taken back. -/
theorem isPrefix (h : Served line xs given later ok) (y : Outlet) : given y <+: later y := by
  have hgive (given : Outlet → Bytes) (x : Outlet) (piece : Bytes) :
      given y <+: give given x piece y := by
    unfold give
    split
    · exact List.prefix_append _ _
    · exact List.prefix_refl _
  induction h with
  | none => exact List.prefix_refl _
  | refused x xs given part rest => exact hgive given x part
  | next h ih => exact (hgive _ _ _).trans ih

/-- When all are served, each has its whole line, and no other outlet has anything new. -/
theorem eq_of_all (h : Served line xs given later true) (hnodup : xs.Nodup) (y : Outlet) :
    later y = given y ++ if y ∈ xs then line y.form else [] := by
  generalize hok : true = served at h
  induction h with
  | none => simp
  | refused => cases hok
  | @next x xs given later ok h ih =>
    obtain ⟨hx, hxs⟩ := List.nodup_cons.mp hnodup
    rw [ih hxs hok]
    by_cases hy : y = x
    · subst hy
      simp [give, hx]
    · simp [give, hy]

/-- When one refuses, those before it have their whole lines, it has a proper
initial part, and those behind it have nothing new. -/
theorem cut (h : Served line xs given later false) (hnodup : xs.Nodup) :
    ∃ before x after part rest, xs = before ++ x :: after ∧ line x.form = part ++ rest ∧
      rest ≠ [] ∧ later x = given x ++ part ∧ (∀ y ∈ before, later y = given y ++ line y.form) ∧
      ∀ y, y ∉ before → y ≠ x → later y = given y := by
  generalize hok : false = served at h
  induction h with
  | none => cases hok
  | refused x xs given part rest hline hrest =>
    exact ⟨[], x, xs, part, rest, rfl, hline, hrest, by simp [give], by simp,
      fun y _ hy => by simp [give, hy]⟩
  | @next x xs given later ok h ih =>
    obtain ⟨hx, hxs⟩ := List.nodup_cons.mp hnodup
    obtain ⟨before, z, after, part, rest, rfl, hline, hrest, hz, hbefore, hothers⟩ := ih hxs hok
    have hxz : z ≠ x := fun h => hx (by simp [h])
    have hxb : x ∉ before := fun h => hx (by simp [h])
    refine ⟨x :: before, z, after, part, rest, rfl, hline, hrest, ?_, fun y hy => ?_,
      fun y hy hyz => ?_⟩
    · simpa [give, hxz] using hz
    · rcases List.mem_cons.mp hy with rfl | hy
      · simpa [give] using hothers y hxb hxz.symm
      · have hyx : y ≠ x := fun h => hxb (h ▸ hy)
        simpa [give, hyx] using hbefore y hy
    · simp only [List.mem_cons, not_or] at hy
      simpa [give, hy.1] using hothers y hy.2 hyz

end Served

/-! ### Open sinks -/

namespace SinkPair

def sink (pair : SinkPair) : Form → Sink
  | .json => pair.json
  | .plain => pair.plain

theorem mem_both (pair : SinkPair) {sink : Sink} :
    sink ∈ [pair.json, pair.plain] ↔ ∃ form, sink = pair.sink form := by
  constructor
  · intro h
    rcases List.mem_cons.mp h with rfl | h
    · exact ⟨.json, rfl⟩
    · exact ⟨.plain, List.mem_singleton.mp h⟩
  · rintro ⟨form, rfl⟩
    cases form <;> simp [sink]

end SinkPair

/-- Open sinks by their outlets. -/
abbrev Sinks := Outlet → Option Sink

namespace Sinks

def set (sinks : Sinks) (x : Outlet) (sink : Sink) : Sinks :=
  fun y => if y = x then some sink else sinks y

def setPair (sinks : Sinks) (g : Group) (pair : SinkPair) : Sinks :=
  fun y => if y.group = g then some (pair.sink y.form) else sinks y

theorem set_set_eq_setPair (sinks : Sinks) (g : Group) (json plain : Sink) :
    set (set sinks ⟨g, .json⟩ json) ⟨g, .plain⟩ plain = setPair sinks g ⟨json, plain⟩ := by
  funext ⟨g', form⟩
  by_cases hg : g' = g <;> cases form <;> simp [set, setPair, SinkPair.sink, hg]

theorem set_json_eq_setPair {sinks : Sinks} {g : Group} {pair : SinkPair}
    (h : ∀ form, sinks ⟨g, form⟩ = some (pair.sink form)) (json : Sink) :
    set sinks ⟨g, .json⟩ json = setPair sinks g { pair with json } := by
  funext ⟨g', form⟩
  by_cases hg : g' = g
  · subst hg
    cases form
    · simp [set, setPair, SinkPair.sink]
    · simpa [set, setPair, SinkPair.sink] using h .plain
  · simp [set, setPair, hg]

theorem setPair_of_eq {sinks : Sinks} {g : Group} {pair : SinkPair}
    (h : ∀ form, sinks ⟨g, form⟩ = some (pair.sink form)) : setPair sinks g pair = sinks := by
  funext ⟨g', form⟩
  by_cases hg : g' = g
  · subst hg
    simp [setPair, h]
  · simp [setPair, hg]

theorem setPair_setPair (sinks : Sinks) (g : Group) (pair later : SinkPair) :
    setPair (setPair sinks g pair) g later = setPair sinks g later := by
  funext y
  by_cases hg : y.group = g <;> simp [setPair, hg]

/-- An open sink writes to the file at the place. -/
def Uses (sinks : Sinks) (place : Place) : Prop :=
  ∃ x sink, sinks x = some sink ∧ sink.handle.place = place

/-- An open sink with another path writes to the file at the place. -/
def UsesElse (sinks : Sinks) (p : Path) (place : Place) : Prop :=
  ∃ x sink, sinks x = some sink ∧ sink.path ≠ p ∧ sink.handle.place = place

/-- Each sink writes to a file of its own in the directory, and was given the bytes
of its outlet. -/
structure Hold (disk : Disk) (dir : Path) (sinks : Sinks) (given : Outlet → Bytes) : Prop where
  holds : ∀ x sink, sinks x = some sink → sink.Holds disk (given x)
  named : ∀ x sink, sinks x = some sink → sink.path = x.path dir
  apart : ∀ x y s t, sinks x = some s → sinks y = some t →
    s.handle.place = t.handle.place → x = y
  unused : ∀ x, sinks x = none → given x = []

namespace Hold

variable {disk : Disk} {dir : Path} {sinks : Sinks} {given : Outlet → Bytes}

theorem frame (h : Hold disk dir sinks given) {S : Place → Prop} {later : Disk}
    (hu : Disk.Updates S disk later) (hS : ∀ place, sinks.Uses place → ¬ S place) :
    Hold later dir sinks given :=
  { h with holds := fun x sink hx => (h.holds x sink hx).frame hu (hS _ ⟨x, sink, hx, rfl⟩) }

/-- One sink is opened, or is in another state, after changes that do not concern the others. -/
theorem set (h : Hold disk dir sinks given) {S : Place → Prop} {later : Disk}
    (hu : Disk.Updates S disk later) {x : Outlet} {sink : Sink} {given' : Outlet → Bytes}
    (hnew : sink.Holds later (given' x)) (hpath : sink.path = x.path dir)
    (hgiven : ∀ y, y ≠ x → given' y = given y)
    (hothers : ∀ y s, y ≠ x → sinks y = some s →
      ¬ S s.handle.place ∧ s.handle.place ≠ sink.handle.place) :
    Hold later dir (sinks.set x sink) given' := by
  have hself {s : Sink} (hs : sinks.set x sink x = some s) : s = sink := by
    simpa [Sinks.set] using hs.symm
  have hother {y : Outlet} {s : Sink} (hyx : y ≠ x) (hs : sinks.set x sink y = some s) :
      sinks y = some s := by
    simpa [Sinks.set, hyx] using hs
  refine ⟨fun y s hs => ?_, fun y s hs => ?_, fun y z s t hs ht hplace => ?_, fun y hy => ?_⟩
  · by_cases hyx : y = x
    · subst hyx
      exact hself hs ▸ hnew
    · have hs := hother hyx hs
      exact hgiven y hyx ▸ (h.holds y s hs).frame hu (hothers y s hyx hs).1
  · by_cases hyx : y = x
    · subst hyx
      exact hself hs ▸ hpath
    · exact h.named y s (hother hyx hs)
  · by_cases hyx : y = x <;> by_cases hzx : z = x
    · rw [hyx, hzx]
    · subst hyx
      obtain rfl := hself hs
      exact absurd hplace.symm (hothers z t hzx (hother hzx ht)).2
    · subst hzx
      obtain rfl := hself ht
      exact absurd hplace (hothers y s hyx (hother hyx hs)).2
    · exact h.apart y z s t (hother hyx hs) (hother hzx ht) hplace
  · by_cases hyx : y = x
    · simp [Sinks.set, hyx] at hy
    · rw [hgiven y hyx]
      exact h.unused y (by simpa [Sinks.set, hyx] using hy)

/-- One sink takes a line. -/
theorem putLine (h : Hold disk dir sinks given) (hcwd : disk.HasCwd) {x : Outlet} {sink : Sink}
    (hx : sinks x = some sink) (line : Bytes) :
    ∃ part rest, line ++ [0x0A] = part ++ rest ∧
      Hold ((sink.putLine line).run disk).1 dir
        (sinks.set x ((sink.putLine line).run disk).2.1) (give given x part) ∧
      (((sink.putLine line).run disk).2.2 = none ↔ rest = []) := by
  obtain ⟨part, rest, hline, hholds, hnone⟩ := Sink.putLine_takesPart hcwd (h.holds x sink hx) line
  have hsame := (sink.putLine_writesTo line).run disk
  have hu := ((sink.putLine line).run_updates hcwd).mono
    ((sink.putLine_writesTo line).touched_sub disk)
  refine ⟨part, rest, hline, h.set hu ?_ (hsame.1.trans (h.named x sink hx)) ?_ ?_, hnone⟩
  · simpa [give] using hholds
  · exact fun y hyx => if_neg hyx
  · intro y s hyx hs
    have hplace : s.handle.place ≠ sink.handle.place :=
      fun hplace => hyx (h.apart y x s sink hs hx hplace)
    exact ⟨hplace, hsame.2.1.symm ▸ hplace⟩

/-- A pair of sinks takes a line in each form. -/
theorem putLines (h : Hold disk dir sinks given) (hcwd : disk.HasCwd) {g : Group} {pair : SinkPair}
    (hg : ∀ form, sinks ⟨g, form⟩ = some (pair.sink form)) (text : Form → Bytes) :
    ∃ later, Served (text · ++ [0x0A]) [⟨g, .json⟩, ⟨g, .plain⟩] given later
        ((pair.putLines (text .json) (text .plain)).run disk).2.2.isNone ∧
      Hold ((pair.putLines (text .json) (text .plain)).run disk).1 dir
        (sinks.setPair g ((pair.putLines (text .json) (text .plain)).run disk).2.1) later := by
  obtain ⟨part, rest, hline, hjson, hnone⟩ := h.putLine hcwd (hg .json) (text .json)
  have hcwd' := (pair.json.putLine (text .json)).run_hasCwd hcwd
  rw [show pair.sink .json = pair.json from rfl] at hjson hnone
  cases pair.putting (text .json) (text .plain) disk with
  | refused made sink e hput hrun =>
    rw [hput] at hjson hnone
    rw [hrun]
    refine ⟨_, .refused _ _ _ part rest hline (by simpa using hnone), ?_⟩
    rwa [set_json_eq_setPair hg] at hjson
  | taken made last later failure hput hput' hrun =>
    rw [hput] at hjson hnone hcwd'
    obtain rfl := hnone.mp rfl
    rw [List.append_nil] at hline
    subst hline
    have hplain : sinks.set ⟨g, .json⟩ later.json ⟨g, .plain⟩ = some pair.plain := by
      simpa [Sinks.set, SinkPair.sink] using hg .plain
    obtain ⟨part, rest, hline, hholds, hnone'⟩ := hjson.putLine hcwd' hplain (text .plain)
    rw [hput', set_set_eq_setPair] at hholds
    rw [hput'] at hnone'
    rw [hrun]
    refine ⟨_, .next ?_, hholds⟩
    cases failure with
    | some e => exact .refused _ _ _ part rest hline (by simpa using hnone')
    | none =>
      obtain rfl := hnone'.mp rfl
      rw [List.append_nil] at hline
      subst hline
      exact .next (.none _)

/-! ### Opening -/

/-- A sink that is opened has been given nothing. -/
theorem openSink (h : Hold disk dir sinks given) (hcwd : disk.HasCwd) {x : Outlet}
    (hx : sinks x = none) (hown : (Sink.create (x.path dir)).OpensOwn disk sinks.UsesElse)
    {made : Disk} {sink : Sink} (hopen : (Sink.create (x.path dir)).run disk = (made, .ok sink)) :
    Hold made dir (sinks.set x sink) given := by
  obtain ⟨hcreate, hpath, hbuffer⟩ := Sink.create_opens hopen
  have hok := congrArg Prod.snd hcreate
  have hregular := hown.files (disk, .create (x.path dir)) List.mem_cons_self sink.handle hok
  obtain ⟨hstart, access, hfile⟩ := Disk.create_file hcwd hok hregular
  rw [hcreate] at hfile
  have hfree := hown.free (x.path dir, sink.handle) (by simp [Sink.create_created_of_ok hopen])
  refine h.set (Sink.create_updates_of_ok hcwd hopen) ?_ hpath (fun _ _ => rfl) ?_
  · exact ⟨by simp [hbuffer], [], access, hfile, hstart, by rw [h.unused x hx, hbuffer]; rfl⟩
  · intro y s hyx hs
    have hplace : s.handle.place ≠ sink.handle.place := fun hplace =>
      hfree ⟨y, s, hs, fun hpath => hyx (Outlet.path_injective
        ((h.named y s hs).symm.trans hpath)), hplace⟩
    exact ⟨hplace, hplace⟩

/-- A sink is let go of before it was given anything: its file is left empty. -/
theorem dropNew {x : Outlet} {sink : Sink} (hx : sinks x = none) (hgiven : given x = [])
    (h : Hold disk dir (sinks.set x sink) given) (hcwd : disk.HasCwd) :
    Hold (sink.release.run disk).1 dir sinks given ∧
      (sink.release.run disk).1.bytesAt? sink.handle.place = some [] := by
  have hset : ∀ y s, sinks y = some s → sinks.set x sink y = some s := by
    intro y s hy
    have hyx : y ≠ x := by
      rintro rfl
      rw [hx] at hy
      cases hy
    simp [Sinks.set, hyx, hy]
  have hself : sinks.set x sink x = some sink := by simp [Sinks.set]
  have hu := (sink.release.run_updates hcwd).mono (sink.release_writesTo.touched_sub disk)
  refine ⟨⟨fun y s hy => ?_, fun y s hy => h.named y s (hset y s hy),
    fun y z s t hy hz => h.apart y z s t (hset y s hy) (hset z t hz), fun y hy => ?_⟩, ?_⟩
  · refine (h.holds y s (hset y s hy)).frame hu fun hplace => ?_
    rw [h.apart y x s sink (hset y s hy) hself hplace, hx] at hy
    cases hy
  · by_cases hyx : y = x
    · rw [hyx, hgiven]
    · exact h.unused y (by simpa [Sinks.set, hyx] using hy)
  · obtain ⟨part, rest, hparts, hbytes, -⟩ := Sink.release_bytesAt? hcwd (h.holds x sink hself)
    rw [hgiven] at hparts
    rw [hbytes, (List.append_eq_nil_iff.mp hparts.symm).1]

/-- Where a pair cannot be opened, nothing is different for the sinks that are open,
and files that were opened for it are left empty. -/
theorem openPair (h : Hold disk dir sinks given) (hcwd : disk.HasCwd) {g : Group}
    (hnew : ∀ form, sinks ⟨g, form⟩ = none) (name : Form → Text)
    (hname : ∀ form, dir.join (Path.ofText (name form)) = Outlet.path dir ⟨g, form⟩)
    (hown : (SinkPair.create dir name).OpensOwn disk sinks.UsesElse) :
    match ((SinkPair.create dir name).run disk).2 with
    | .error _ => Hold ((SinkPair.create dir name).run disk).1 dir sinks given ∧
        ∀ e ∈ (SinkPair.create dir name).created disk,
          ((SinkPair.create dir name).run disk).1.bytesAt? e.2.place = some []
    | .ok pair => Hold ((SinkPair.create dir name).run disk).1 dir (sinks.setPair g pair) given ∧
        (SinkPair.create dir name).created disk =
          [(pair.json.path, pair.json.handle), (pair.plain.path, pair.plain.handle)] := by
  unfold SinkPair.create at hown
  rw [hname .json, hname .plain] at hown
  have hcwd' := (Sink.create (Outlet.path dir ⟨g, .json⟩)).run_hasCwd hcwd
  cases SinkPair.opening dir name disk with
  | noJson made e hjson hrun hcreated =>
    rw [hname .json] at hjson
    rw [hrun, hcreated]
    exact ⟨h.frame (Sink.create_updates_of_error hcwd hjson) fun _ _ => id, by simp⟩
  | noPlain made last sink e hjson hplain hrun hcreated =>
    rw [hname .json] at hjson
    rw [hjson] at hcwd'
    have hopened := h.openSink hcwd (hnew .json) hown.left hjson
    have hfailed := hopened.frame (Sink.create_updates_of_error hcwd' hplain) fun _ _ => id
    have hlast := (Sink.create (dir.join (Path.ofText (name .plain)))).run_hasCwd hcwd'
    rw [hplain] at hlast
    obtain ⟨hdropped, hempty⟩ := hfailed.dropNew (hnew .json) (h.unused _ (hnew .json)) hlast
    rw [hrun, hcreated]
    exact ⟨hdropped, fun f hf => List.mem_singleton.mp hf ▸ hempty⟩
  | both made last pair hjson hplain hrun hcreated =>
    rw [hname .json] at hjson
    rw [hname .plain] at hplain
    rw [hjson] at hcwd'
    have hopened := h.openSink hcwd (hnew .json) hown.left hjson
    have hboth := hopened.openSink hcwd' (x := ⟨g, .plain⟩) (by simpa [Sinks.set] using hnew .plain)
      ((hown.rest hjson).left.mono fun p place huses => ?_) hplain
    · rw [set_set_eq_setPair] at hboth
      have hpath (form : Form) : Outlet.path dir ⟨g, form⟩ = (pair.sink form).path :=
        (hboth.named ⟨g, form⟩ _ (by simp [setPair])).symm
      rw [hrun, hcreated, hname .json, hname .plain, hpath .json, hpath .plain]
      exact ⟨hboth, rfl⟩
    · -- What the sink for JSON uses is taken for the plain one.
      rw [Sink.create_created_of_ok hjson]
      obtain ⟨y, s, hy, hpath, rfl⟩ := huses
      by_cases hyx : y = ⟨g, .json⟩
      · subst hyx
        obtain rfl : _ = s := by simpa [Sinks.set] using hy
        rw [hopened.named _ _ hy] at hpath
        exact .inr ⟨_, List.mem_singleton_self _, hpath, rfl⟩
      · exact .inl ⟨y, s, by simpa [Sinks.set, hyx] using hy, hpath, rfl⟩

end Hold

end Sinks

end NodeLogs
