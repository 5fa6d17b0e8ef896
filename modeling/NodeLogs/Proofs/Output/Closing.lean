import NodeLogs.Proofs.Output.Standing

/-! Finishing a writer. Every sink is closed, whatever becomes of the others; and where no two of
them write to one regular file, each is closed as if it were the only one. So neither the files nor
whether a failure is reported depend on the order in which the nodes come. -/

namespace NodeLogs

variable {disk other : Disk}

/-! ### Single sinks -/

namespace Sink

variable {s sink : Sink} {sinks rest : List Sink}

/-- Why the device refuses what waits, if it does. -/
def refusal? (disk : Disk) (sink : Sink) : Option OsError :=
  (sink.flush.run disk).2.2

theorem close_result (disk : Disk) (sink : Sink) : (sink.close.run disk).2 =
    (sink.refusal? disk).map fun e => ⟨.flush, sink.path, e⟩ := by
  have hsame := sink.flush_writesTo.run disk
  unfold close refusal?
  simp only [Work.run_bind, Work.run_pure, hsame.1]

theorem refusal?_same (hcwd : disk.HasCwd) (hcwd' : other.HasCwd)
    (hsame : Disk.SameAt sink.handle.place disk other) :
    sink.refusal? other = sink.refusal? disk :=
  congrArg Prod.snd (sink.flush_writesTo.run_same hcwd hcwd' hsame).1

/-- A sink that is closed without a refusal leaves all its bytes in its file, if it has one. -/
theorem close_bytes (hcwd : disk.HasCwd) (h : sink.Stands disk) (hok : sink.refusal? disk = none) :
    disk.root.HasDevice sink.handle.place ∨
      ∃ bytes, disk.bytesAt? sink.handle.place = some bytes ∧
        (sink.close.run disk).1.bytesAt? sink.handle.place = some (bytes ++ sink.buffer) := by
  rcases h with ⟨given, hgiven⟩ | hdevice
  · obtain ⟨bytes, rfl, hbytes⟩ := hgiven.bytesAt?
    obtain ⟨part, rest, hpart, hlater, hall⟩ := close_bytesAt? hcwd hgiven
    have hrest : rest = [] := hall (by rw [close_result, hok, Option.map_none])
    rw [hrest, List.append_nil] at hpart
    exact .inr ⟨bytes, hbytes, hpart ▸ hlater⟩
  · exact .inl hdevice

/-! ### One after another -/

/-- The disk when each sink has been closed in its turn. -/
def afterClosing (disk : Disk) (sinks : List Sink) : Disk :=
  sinks.foldl (fun disk sink => (sink.close.run disk).1) disk

/-- Whatever is refused, every sink is closed. -/
theorem closeEach_disk (sinks : List Sink) (disk : Disk) :
    ((closeEach sinks).run disk).1 = afterClosing disk sinks := by
  induction sinks generalizing disk with
  | nil => rfl
  | cons sink rest ih =>
    simp only [closeEach, Work.run_bind, Work.run_pure, ih]
    rfl

/-- All stand, and no two of them write to one place, unless a device is there. -/
structure Parted (disk : Disk) (sinks : List Sink) : Prop where
  stands : ∀ s ∈ sinks, s.Stands disk
  apart : sinks.Pairwise fun s t =>
    s.handle.place = t.handle.place → disk.root.HasDevice s.handle.place

namespace Parted

/-- The step: when the first is closed, the others do not notice. -/
theorem close_first (h : Parted disk (s :: rest)) (hcwd : disk.HasCwd) :
    Parted (s.close.run disk).1 rest ∧
      ∀ t ∈ rest, Disk.SameAt t.handle.place disk (s.close.run disk).1 := by
  obtain ⟨hs, hrest⟩ := List.pairwise_cons.mp h.apart
  have hu := s.close.run_updates hcwd
  have hsame : ∀ t ∈ rest, Disk.SameAt t.handle.place disk (s.close.run disk).1 := by
    intro t ht
    apply s.close_writesTo.run_elsewhere hcwd (h.stands t (List.mem_cons_of_mem s ht)).not_dir
    intro hplace
    exact hplace ▸ hs t ht hplace.symm
  refine ⟨⟨fun t ht => ?_, hrest.imp fun happart hplace => hu.hasDevice (happart hplace)⟩, hsame⟩
  exact (h.stands t (List.mem_cons_of_mem s ht)).congr (hsame t ht).node

/-- Nor does the first notice when the others are closed. -/
theorem close_rest (h : Parted disk (s :: rest)) (hcwd : disk.HasCwd) :
    Disk.SameAt s.handle.place (s.close.run disk).1
      ((closeEach rest).run (s.close.run disk).1).1 := by
  have hu := s.close.run_updates hcwd
  have hs := (List.pairwise_cons.mp h.apart).1
  have hdir := (h.stands s List.mem_cons_self).not_dir_later hu
  apply (closeEach_writesTo rest).run_elsewhere (s.close.run_hasCwd hcwd) hdir
  rintro ⟨t, ht, hplace⟩
  exact hu.hasDevice (hs t ht hplace.symm)

end Parted

/-- Sinks that are parted leave their files as if each were the only one. -/
theorem closeEach_alone (hcwd : disk.HasCwd) (h : Parted disk sinks) :
    ∀ s ∈ sinks, Disk.SameAt s.handle.place (s.close.run disk).1 ((closeEach sinks).run disk).1 := by
  induction sinks generalizing disk with
  | nil => simp
  | cons s rest ih =>
    obtain ⟨hrest, hsame⟩ := h.close_first hcwd
    have hcwd' := s.close.run_hasCwd hcwd
    have hrun : ((closeEach (s :: rest)).run disk).1 =
        ((closeEach rest).run (s.close.run disk).1).1 := by
      rw [closeEach_disk, closeEach_disk]
      rfl
    rw [hrun]
    intro t ht
    rcases List.mem_cons.mp ht with rfl | ht
    · exact h.close_rest hcwd
    · have halone := t.close_writesTo.run_same hcwd hcwd' (hsame t ht)
      exact halone.2.trans (ih hcwd' hrest t ht)

/-- What is refused when sinks are closed one after another, each under its name. -/
def refusals {ι : Type} (disk : Disk) : List (ι × Sink) → List (ι × OsError)
  | [] => []
  | (x, sink) :: rest =>
    ((sink.refusal? disk).map fun e => (x, e)).toList ++ refusals (sink.close.run disk).1 rest

variable {ι : Type} {named : List (ι × Sink)}

/-- The first refusal is reported. -/
theorem closeEach_result {path : ι → Path} (hpath : ∀ p ∈ named, p.2.path = path p.1) :
    ((closeEach (named.map Prod.snd)).run disk).2 =
      (refusals disk named).head?.map fun p => ⟨.flush, path p.1, p.2⟩ := by
  induction named generalizing disk with
  | nil => rfl
  | cons p rest ih =>
    obtain ⟨x, sink⟩ := p
    obtain ⟨hx, hrest⟩ := List.forall_mem_cons.mp hpath
    simp only [List.map_cons, closeEach, Work.run_bind, Work.run_pure, close_result,
      ih hrest, refusals]
    cases sink.refusal? disk with
    | none => rfl
    | some e =>
      rw [show sink.path = path x from hx]
      rfl

/-- Sinks that are parted are refused what each would be refused if it were the only one. -/
theorem refusals_alone (hcwd : disk.HasCwd) (h : Parted disk (named.map Prod.snd)) :
    refusals disk named = named.filterMap fun p => (p.2.refusal? disk).map fun e => (p.1, e) := by
  induction named generalizing disk with
  | nil => rfl
  | cons p rest ih =>
    obtain ⟨x, sink⟩ := p
    obtain ⟨hrest, hsame⟩ := Parted.close_first h hcwd
    have hcwd' := sink.close.run_hasCwd hcwd
    have hothers : rest.filterMap (fun p => (p.2.refusal? (sink.close.run disk).1).map (p.1, ·)) =
        rest.filterMap fun p => (p.2.refusal? disk).map (p.1, ·) := by
      apply List.filterMap_congr
      intro p hp
      rw [refusal?_same hcwd hcwd' (hsame p.2 (List.mem_map_of_mem hp))]
    rw [refusals, ih hcwd' hrest, hothers, List.filterMap_cons]
    cases sink.refusal? disk <;> rfl

/-- Refusals come in the order of the sinks. -/
theorem refusals_sublist (disk : Disk) (named : List (ι × Sink)) :
    ((refusals disk named).map Prod.fst).Sublist (named.map Prod.fst) := by
  induction named generalizing disk with
  | nil => exact .slnil
  | cons p rest ih =>
    obtain ⟨x, sink⟩ := p
    rw [refusals, List.map_append, List.map_cons]
    cases sink.refusal? disk with
    | none => exact (ih _).cons x
    | some e => exact (ih _).cons_cons x

end Sink

/-! ### Writers -/

namespace Writer

variable {dir : Path} {w : Writer} {nodes : List (Nat × SinkPair)}

/-- What is refused when the writer is finished, each at its outlet. -/
def refusals (disk : Disk) (w : Writer) : List (Outlet × OsError) :=
  Sink.refusals disk w.inTurn

/-- A failure is reported if anything was refused: at a node, if there was one, and at the JSON
file of a group, if it was one of the two. -/
structure Reports (dir : Path) (refused : List (Outlet × OsError)) (failure : Option SinkError) :
    Prop where
  ok_iff : failure = none ↔ refused = []
  named : ∀ f, failure = some f → ∃ x e, (x, e) ∈ refused ∧ f = ⟨.flush, x.path dir, e⟩ ∧
    (x.group = .all → ∀ p ∈ refused, p.1.group = .all) ∧
    (x.form = .plain → ∀ p ∈ refused, p.1 ≠ ⟨x.group, .json⟩)

/-- Whatever is refused, a finished writer reports the first of it. -/
theorem Named.finish_reports (h : w.Named dir) (disk : Disk) :
    Reports dir (w.refusals disk) (w.finish.run disk).2 := by
  have hpath : ∀ p ∈ w.inTurn, p.2.path = p.1.path dir :=
    fun ⟨x, sink⟩ hp => h.path_eq x sink ((mem_inTurn h.once).mp hp)
  have hbefore := (inTurn_before h.once).sublist (Sink.refusals_sublist disk w.inTurn)
  rw [finish_eq, ← inTurn_sinks, Sink.closeEach_result hpath]
  show Reports dir (Sink.refusals disk w.inTurn) _
  cases hrefused : Sink.refusals disk w.inTurn with
  | nil => exact ⟨by simp, by simp⟩
  | cons first rest =>
    obtain ⟨x, e⟩ := first
    rw [hrefused, List.pairwise_map] at hbefore
    have hrest := (List.pairwise_cons.mp hbefore).1
    refine ⟨by simp, fun f hf => ⟨x, e, List.mem_cons_self, ?_, fun hall => ?_, fun hplain => ?_⟩⟩
    · cases hf
      rfl
    · exact List.forall_mem_cons.mpr ⟨hall, fun p hp => (hrest p hp).2.1 hall⟩
    · refine List.forall_mem_cons.mpr ⟨fun hx => ?_, fun p hp => (hrest p hp).2.2 hplain⟩
      rw [show x.form = .json from congrArg Outlet.form hx] at hplain
      cases hplain

/-! ### The order of nodes -/

/-- The same writer with its nodes in another order. -/
theorem sinks_perm (honce : (w.nodes.map Prod.fst).Nodup) (horder : nodes.Perm w.nodes) :
    ({ w with nodes } : Writer).sinks = w.sinks := by
  funext ⟨g, form⟩
  cases g with
  | node n => exact congrArg (Option.map (·.sink form)) (Keyed.lookup_perm honce horder n)
  | all => rfl

theorem Named.perm (h : w.Named dir) (horder : nodes.Perm w.nodes) :
    ({ w with nodes } : Writer).Named dir where
  dir_eq := h.dir_eq
  path_eq x sink hx := h.path_eq x sink (sinks_perm h.once horder ▸ hx)
  once := (horder.map Prod.fst).nodup_iff.mpr h.once

/-! ### Sinks that stand -/

theorem parted (honce : (w.nodes.map Prod.fst).Nodup) (h : w.sinks.Stand disk) :
    Sink.Parted disk (w.inTurn.map Prod.snd) where
  stands s hs := by
    obtain ⟨⟨x, _⟩, hp, rfl⟩ := List.mem_map.mp hs
    exact h.stands x _ ((mem_inTurn honce).mp hp)
  apart := by
    refine List.pairwise_map.mpr ((List.pairwise_map.mp (inTurn_before honce)).imp_of_mem ?_)
    rintro ⟨x, s⟩ ⟨y, t⟩ hs ht hxy hplace
    exact h.apart x y s t ((mem_inTurn honce).mp hs) ((mem_inTurn honce).mp ht) hxy.1 hplace

/-- Each sink leaves its place as if it were the only one. -/
theorem finish_alone (hcwd : disk.HasCwd) (honce : (w.nodes.map Prod.fst).Nodup)
    (h : w.sinks.Stand disk) {x : Outlet} {sink : Sink} (hx : w.sinks x = some sink) :
    Disk.SameAt sink.handle.place (sink.close.run disk).1 (w.finish.run disk).1 := by
  rw [finish_eq, ← inTurn_sinks]
  exact Sink.closeEach_alone hcwd (parted honce h) sink
    (List.mem_map_of_mem ((mem_inTurn honce).mpr hx))

/-- And each is refused what it would be refused if it were the only one. -/
theorem mem_refusals (hcwd : disk.HasCwd) (honce : (w.nodes.map Prod.fst).Nodup)
    (h : w.sinks.Stand disk) {x : Outlet} {e : OsError} :
    (x, e) ∈ w.refusals disk ↔ ∃ sink, w.sinks x = some sink ∧ sink.refusal? disk = some e := by
  rw [refusals, Sink.refusals_alone hcwd (parted honce h), List.mem_filterMap]
  constructor
  · rintro ⟨⟨y, sink⟩, hp, hrefused⟩
    obtain ⟨e', he, heq⟩ := Option.map_eq_some_iff.mp hrefused
    cases heq
    exact ⟨sink, (mem_inTurn honce).mp hp, he⟩
  · rintro ⟨sink, hx, he⟩
    exact ⟨(x, sink), (mem_inTurn honce).mpr hx, by simp [he]⟩

/-- A writer is finished with its nodes in some order: what is refused is what each sink would be
refused on its own, the other sinks leave all their bytes, and neither whether a failure is reported
nor any file is different from what the writer's own order comes to. -/
structure FinishesAlike (w : Writer) (disk : Disk) (ordered : Writer) : Prop where
  refused_iff : ∀ x e, (x, e) ∈ ordered.refusals disk ↔
    ∃ sink, w.sinks x = some sink ∧ sink.refusal? disk = some e
  flushed : ∀ x sink, w.sinks x = some sink → sink.refusal? disk = none →
    disk.root.HasDevice sink.handle.place ∨ ∃ bytes, disk.bytesAt? sink.handle.place = some bytes ∧
      (ordered.finish.run disk).1.bytesAt? sink.handle.place = some (bytes ++ sink.buffer)
  verdict : (ordered.finish.run disk).2 = none ↔ (w.finish.run disk).2 = none
  files : ∀ place, (ordered.finish.run disk).1.bytesAt? place =
    (w.finish.run disk).1.bytesAt? place

/-- Finishing leaves other places as they are. -/
theorem finish_elsewhere (hcwd : disk.HasCwd) (honce : (w.nodes.map Prod.fst).Nodup) {place : Place}
    (hother : ¬ w.sinks.Uses place) :
    (w.finish.run disk).1.bytesAt? place = disk.bytesAt? place :=
  ((w.finish.run_updates hcwd).mono ((finish_uses honce).touched_sub disk)).bytesAt? hother

/-- The order of the nodes makes no difference where sinks stand apart. -/
theorem Named.finishesAlike (hnamed : w.Named dir) (hcwd : disk.HasCwd) (h : w.sinks.Stand disk)
    (horder : nodes.Perm w.nodes) : w.FinishesAlike disk { w with nodes } := by
  have hsinks := sinks_perm hnamed.once horder
  have honce' := (hnamed.perm horder).once
  have h' : ({ w with nodes } : Writer).sinks.Stand disk := hsinks ▸ h
  have halone {x : Outlet} {sink : Sink} (hx : w.sinks x = some sink) :=
    finish_alone hcwd honce' h' (hsinks ▸ hx : ({ w with nodes } : Writer).sinks x = some sink)
  have hrefused (x : Outlet) (e : OsError) :
      (x, e) ∈ ({ w with nodes } : Writer).refusals disk ↔ (x, e) ∈ w.refusals disk := by
    rw [mem_refusals hcwd honce' h', hsinks, mem_refusals hcwd hnamed.once h]
  refine ⟨fun x e => ?_, fun x sink hx hok => ?_, ?_, fun place => ?_⟩
  · rw [hrefused, mem_refusals hcwd hnamed.once h]
  · rcases Sink.close_bytes hcwd (h.stands x sink hx) hok with hdevice | ⟨bytes, hbytes, hclosed⟩
    · exact .inl hdevice
    · exact .inr ⟨bytes, hbytes, (halone hx).bytesAt?.trans hclosed⟩
  · rw [((hnamed.perm horder).finish_reports disk).ok_iff, (hnamed.finish_reports disk).ok_iff,
      List.eq_nil_iff_forall_not_mem, List.eq_nil_iff_forall_not_mem]
    exact forall_congr' fun ⟨x, e⟩ => not_congr (hrefused x e)
  · by_cases huses : w.sinks.Uses place
    · obtain ⟨x, sink, hx, rfl⟩ := huses
      rw [(halone hx).bytesAt?, (finish_alone hcwd hnamed.once h hx).bytesAt?]
    · have hother : ¬ ({ w with nodes } : Writer).sinks.Uses place := hsinks ▸ huses
      rw [finish_elsewhere hcwd honce' hother, finish_elsewhere hcwd hnamed.once huses]

end Writer

/-! ### Sessions -/

namespace Session

variable {dir : Path} {runName : Text} {s t : Session}

/-- At any time devices may begin to refuse writes, or cease to. -/
theorem Event.faults (hcwd : s.disk.HasCwd) (faults : Faults) :
    Event s { s with disk := { s.disk with faults } } :=
  .meanwhile hcwd fun _ _ => rfl

/-- Whatever happens, a writer is one in use. -/
theorem Begins.inUse (hs : s.Begins dir runName) (hst : Relation.ReflTransGen Event s t) :
    t.writer.InUse dir runName := by
  induction hst with
  | refl =>
    cases hs with
    | create _ hok => exact .create hok
  | tail _ hstep ih =>
    cases hstep with
    | write e => exact ih.session e
    | meanwhile => exact ih

/-- Whatever happened to a writer and whatever its devices refuse now, with its nodes in any order
it closes every sink and reports the first refusal, if there is one. If no two of the paths that it
has opened lead to one regular file, it finishes alike in any order. -/
theorem finish_inAnyOrder (hs : s.Begins dir runName) (hst : Relation.ReflTransGen Event s t)
    {nodes : List (Nat × SinkPair)} (horder : nodes.Perm t.writer.nodes) :
    let ordered : Writer := { t.writer with nodes }
    (ordered.finish.run t.disk).1 = Sink.afterClosing t.disk (ordered.inTurn.map Prod.snd) ∧
      Writer.Reports dir (ordered.refusals t.disk) (ordered.finish.run t.disk).2 ∧
      (t.ApartFiles → t.writer.FinishesAlike t.disk ordered) := by
  intro ordered
  have hnamed := (hs.inUse hst).named
  refine ⟨?_, (hnamed.perm horder).finish_reports t.disk, fun hown => ?_⟩
  · rw [Writer.finish_eq, ← Writer.inTurn_sinks, Sink.closeEach_disk]
  · have hsound := hs.reach hst hown
    exact hnamed.finishesAlike hsound.cwd hsound.stand horder

/-- A writer where the plain file of node 0 is a full device, with entries of nodes 0 and 1. -/
def begun : Session :=
  ⟨((Writer.create (.ofString "o") []).run (FullDevice.tree [])).1, FullDevice.writer,
    (Writer.create (.ofString "o") []).created (FullDevice.tree []), []⟩

def written : Session :=
  (begun.write (FullDevice.entry 0 "Vote".toList)).write (FullDevice.entry 1 "Vote".toList)

/-- The next write to the JSON file of node 1 will be refused as well. -/
def refusing : Session :=
  let faults : Faults :=
    { writes := [([FullDevice.name "o", FullDevice.name "node1.jsonl"], some 3)] }
  { written with disk := { written.disk with faults } }

/-- Of the two refusals, the one that comes first in either order is reported. -/
theorem finish_inAnyOrder_refusing :
    let t := refusing
    let ordered : Writer := { t.writer with nodes := t.writer.nodes.reverse }
    let json := (Outlet.mk (.node 1) .json).path (.ofString "o")
    let plain := (Outlet.mk (.node 0) .plain).path (.ofString "o")
    begun.Begins (.ofString "o") [] ∧ Relation.ReflTransGen Event begun t ∧ t.ApartFiles ∧
      (t.writer.finish.run t.disk).2 = some ⟨.flush, plain, .noSpace⟩ ∧
      (ordered.finish.run t.disk).2 = some ⟨.flush, json, .noSpace⟩ ∧
      Writer.Reports (.ofString "o") (ordered.refusals t.disk) (ordered.finish.run t.disk).2 ∧
      t.writer.FinishesAlike t.disk ordered := by
  intro t ordered json plain
  have hs : begun.Begins (.ofString "o") [] := .create (by decide +kernel) rfl
  have hwritten : Relation.ReflTransGen Event begun written :=
    (Relation.ReflTransGen.single (.write _)).tail (.write _)
  have hst : Relation.ReflTransGen Event begun t :=
    hwritten.tail (.faults (by decide +kernel) _)
  have hown : t.ApartFiles := by decide +kernel
  obtain ⟨-, hreports, halike⟩ := finish_inAnyOrder hs hst (List.reverse_perm t.writer.nodes)
  exact ⟨hs, hst, hown, by decide +kernel, by decide +kernel, hreports, halike hown⟩

/-- It takes files that are apart: where the JSON file of node 0 is a link to the plain file of all
nodes, nothing is refused, but that does not end with all bytes of the sink of node 0. -/
theorem finish_inAnyOrder_shared :
    let s : Session := ⟨((Writer.create (.ofString "o") []).run FullDevice.shared).1,
      FullDevice.writer, (Writer.create (.ofString "o") []).created FullDevice.shared, []⟩
    let t := s.write (FullDevice.entry 0 "Vote".toList)
    let sink := (t.writer.sinks ⟨.node 0, .json⟩).getD FullDevice.writer.combined.json
    s.Begins (.ofString "o") [] ∧ Relation.ReflTransGen Event s t ∧
      (t.writer.finish.run t.disk).2 = none ∧ (t.writer.sinks ⟨.node 0, .json⟩).isSome ∧
      sink.refusal? t.disk = none ∧ t.disk.bytesAt? sink.handle.place = some [] ∧
      (t.writer.finish.run t.disk).1.bytesAt? sink.handle.place ≠ some ([] ++ sink.buffer) := by
  intro s t sink
  exact ⟨.create (by decide +kernel) rfl, .single (.write _), by decide +kernel, by decide +kernel,
    by decide +kernel, by decide +kernel, by decide +kernel⟩

end Session

end NodeLogs
