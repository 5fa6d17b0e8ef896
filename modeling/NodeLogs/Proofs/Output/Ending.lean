import NodeLogs.Proofs.Output.Writers

/-! How writers end. Sinks are closed one after another, or let go of, those of the nodes and those
of all nodes in turns. Each file then has an initial part of what its outlet was given, and all of
it unless the device refuses some. -/

namespace NodeLogs

namespace Sink

/-- Closes sinks one after another; reports the first failure. -/
def closeEach : List Sink → Work (Option SinkError)
  | [] => pure none
  | sink :: rest => do
    let failure ← sink.close
    let later ← closeEach rest
    return failure <|> later

def releaseEach : List Sink → Work Unit
  | [] => pure ()
  | sink :: rest => do
    sink.release
    releaseEach rest

theorem closeEach_append (first second : List Sink) :
    closeEach (first ++ second) = do
      let failure ← closeEach first
      let later ← closeEach second
      return failure <|> later := by
  induction first with
  | nil =>
    have hid : Option.or (none : Option SinkError) = id := funext fun _ => Option.none_or
    simp [closeEach, hid]
  | cons sink rest ih =>
    simp only [List.cons_append, closeEach, ih, bind_assoc, pure_bind]
    congr 1
    funext failure
    congr 1
    funext later
    congr 1
    funext last
    cases failure <;> rfl

theorem releaseEach_append (first second : List Sink) :
    releaseEach (first ++ second) = releaseEach first >>= fun _ => releaseEach second := by
  induction first with
  | nil => simp [releaseEach]
  | cons sink rest ih => simp [releaseEach, ih]

variable {disk : Disk} {sinks : List Sink}

theorem closeEach_writesTo (sinks : List Sink) :
    (closeEach sinks).WritesTo (fun place => ∃ sink ∈ sinks, sink.handle.place = place)
      fun _ => True := by
  induction sinks with
  | nil => exact .pure trivial
  | cons sink rest ih =>
    unfold closeEach
    refine (sink.close_writesTo.mono (fun place h => ⟨sink, by simp, h.symm⟩) fun _ => id).bind
      fun _ _ => ?_
    exact (ih.mono (fun place ⟨s, hs, h⟩ => ⟨s, by simp [hs], h⟩) fun _ => id).bind
      fun _ _ => .pure trivial

theorem releaseEach_writesTo (sinks : List Sink) :
    (releaseEach sinks).WritesTo (fun place => ∃ sink ∈ sinks, sink.handle.place = place)
      fun _ => True := by
  induction sinks with
  | nil => exact .pure trivial
  | cons sink rest ih =>
    unfold releaseEach
    exact (sink.release_writesTo.mono (fun place h => ⟨sink, by simp, h.symm⟩) fun _ => id).bind
      fun _ _ => ih.mono (fun place ⟨s, hs, h⟩ => ⟨s, by simp [hs], h⟩) fun _ => id

/-- The sinks write to files of their own. -/
def Apart (sinks : List Sink) : Prop :=
  sinks.Pairwise fun s t => s.handle.place ≠ t.handle.place

/-- The file of a sink has an initial part of its bytes when all are closed, and all of
them if no failure is reported. -/
theorem closeEach_bytesAt? (hcwd : disk.HasCwd) (hapart : Apart sinks) {sink : Sink}
    (hsink : sink ∈ sinks) {bytes : Bytes} (h : sink.Holds disk bytes) :
    ∃ part rest, bytes = part ++ rest ∧
      ((closeEach sinks).run disk).1.bytesAt? sink.handle.place = some part ∧
      (((closeEach sinks).run disk).2 = none → rest = []) := by
  induction sinks generalizing disk with
  | nil => cases hsink
  | cons s others ih =>
    obtain ⟨hs, hothers⟩ := List.pairwise_cons.mp hapart
    have hu := (s.close.run_updates hcwd).mono (s.close_writesTo.touched_sub disk)
    have hcwd' := s.close.run_hasCwd hcwd
    have hu' := ((closeEach others).run_updates hcwd').mono
      ((closeEach_writesTo others).touched_sub _)
    unfold closeEach
    simp only [Work.run_bind, Work.run_pure, Option.orElse_eq_orElse, Option.orElse_eq_or,
      Option.or_eq_none_iff]
    rcases List.mem_cons.mp hsink with rfl | hmem
    · obtain ⟨part, rest, hbytes, hfile, hall⟩ := close_bytesAt? hcwd h
      refine ⟨part, rest, hbytes, ?_, fun hnone => hall hnone.1⟩
      rw [hu'.bytesAt? fun ⟨t, ht, hplace⟩ => hs t ht hplace.symm, hfile]
    · obtain ⟨part, rest, hbytes, hfile, hall⟩ :=
        ih hcwd' hothers hmem (h.frame hu (hs sink hmem).symm)
      exact ⟨part, rest, hbytes, hfile, fun hnone => hall hnone.2⟩

/-- When all are let go of, it has an initial part of them, and all if nothing is refused. -/
theorem releaseEach_bytesAt? (hcwd : disk.HasCwd) (hapart : Apart sinks) {sink : Sink}
    (hsink : sink ∈ sinks) {bytes : Bytes} (h : sink.Holds disk bytes) :
    ∃ part rest, bytes = part ++ rest ∧
      ((releaseEach sinks).run disk).1.bytesAt? sink.handle.place = some part ∧
      ((releaseEach sinks).Granted disk → rest = []) := by
  induction sinks generalizing disk with
  | nil => cases hsink
  | cons s others ih =>
    obtain ⟨hs, hothers⟩ := List.pairwise_cons.mp hapart
    have hu := (s.release.run_updates hcwd).mono (s.release_writesTo.touched_sub disk)
    have hcwd' := s.release.run_hasCwd hcwd
    have hu' := ((releaseEach others).run_updates hcwd').mono
      ((releaseEach_writesTo others).touched_sub _)
    unfold releaseEach
    rw [Work.run_bind, Work.granted_bind]
    rcases List.mem_cons.mp hsink with rfl | hmem
    · obtain ⟨part, rest, hbytes, hfile, -, hall⟩ := release_bytesAt? hcwd h
      refine ⟨part, rest, hbytes, ?_, fun hok => hall hok.1⟩
      rw [hu'.bytesAt? fun ⟨t, ht, hplace⟩ => hs t ht hplace.symm, hfile]
    · obtain ⟨part, rest, hbytes, hfile, hall⟩ :=
        ih hcwd' hothers hmem (h.frame hu (hs sink hmem).symm)
      exact ⟨part, rest, hbytes, hfile, fun hok => hall hok.2⟩

theorem closeEach_ok (h : (closeEach sinks).Granted disk) :
    ((closeEach sinks).run disk).2 = none := by
  induction sinks generalizing disk with
  | nil => rfl
  | cons sink rest ih =>
    unfold closeEach at h ⊢
    obtain ⟨hsink, hrest⟩ := Work.granted_bind.mp h
    simp only [Work.run_bind, Work.run_pure, close_ok hsink, ih (Work.granted_bind.mp hrest).1]
    rfl

end Sink

/-- The one is closed before the other: nodes before all nodes, and JSON before plain. -/
def Outlet.Before (x y : Outlet) : Prop :=
  x ≠ y ∧ (x.group = .all → y.group = .all) ∧ (x.form = .plain → y ≠ ⟨x.group, .json⟩)

/-- The sinks of a group with their outlets. -/
def SinkPair.outlets (g : Group) (pair : SinkPair) : List (Outlet × Sink) :=
  [(⟨g, .json⟩, pair.json), (⟨g, .plain⟩, pair.plain)]

theorem SinkPair.mem_outlets {g : Group} {pair : SinkPair} {x : Outlet} {sink : Sink} :
    (x, sink) ∈ pair.outlets g ↔ x.group = g ∧ sink = pair.sink x.form := by
  obtain ⟨g', form⟩ := x
  cases form <;> simp [outlets, SinkPair.sink]

namespace Writer

/-- All sinks of nodes. -/
def nodeSinks (nodes : List (Nat × SinkPair)) : List Sink :=
  nodes.flatMap fun (_, pair) => [pair.json, pair.plain]

theorem pair_close (pair : SinkPair) : pair.close = Sink.closeEach [pair.json, pair.plain] := by
  simp [SinkPair.close, Sink.closeEach]

theorem closeAll_eq (nodes : List (Nat × SinkPair)) :
    closeAll nodes = Sink.closeEach (nodeSinks nodes) := by
  induction nodes with
  | nil => rfl
  | cons p nodes ih =>
    obtain ⟨n, pair⟩ := p
    show _ = Sink.closeEach ([pair.json, pair.plain] ++ nodeSinks nodes)
    rw [Sink.closeEach_append, ← pair_close, ← ih]
    rfl

theorem releaseAll_eq (nodes : List (Nat × SinkPair)) :
    releaseAll nodes = Sink.releaseEach (nodeSinks nodes) := by
  induction nodes with
  | nil => rfl
  | cons p nodes ih =>
    obtain ⟨n, pair⟩ := p
    show _ = Sink.releaseEach ([pair.json, pair.plain] ++ nodeSinks nodes)
    rw [Sink.releaseEach_append, ← ih]
    simp [releaseAll, SinkPair.release, Sink.releaseEach]

theorem finish_eq (w : Writer) :
    w.finish = Sink.closeEach (nodeSinks w.nodes ++ [w.combined.json, w.combined.plain]) := by
  rw [Sink.closeEach_append, ← closeAll_eq, ← pair_close]
  rfl

theorem release_eq (w : Writer) :
    w.release = Sink.releaseEach ([w.combined.json, w.combined.plain] ++ nodeSinks w.nodes) := by
  rw [Sink.releaseEach_append, ← releaseAll_eq]
  simp [release, SinkPair.release, Sink.releaseEach]

theorem finish_writesTo (w : Writer) : w.finish.WritesTo
    (fun place => ∃ sink ∈ nodeSinks w.nodes ++ [w.combined.json, w.combined.plain],
      sink.handle.place = place) fun _ => True := by
  rw [finish_eq]
  exact Sink.closeEach_writesTo _

theorem release_writesTo (w : Writer) : w.release.WritesTo
    (fun place => ∃ sink ∈ [w.combined.json, w.combined.plain] ++ nodeSinks w.nodes,
      sink.handle.place = place) fun _ => True := by
  rw [release_eq]
  exact Sink.releaseEach_writesTo _

variable {disk : Disk} {w : Writer} {given : Outlet → Bytes}

theorem mem_nodeSinks {nodes : List (Nat × SinkPair)} {sink : Sink} :
    sink ∈ nodeSinks nodes ↔ ∃ n pair form, (n, pair) ∈ nodes ∧ sink = pair.sink form := by
  simp only [nodeSinks, List.mem_flatMap, SinkPair.mem_both]
  constructor
  · rintro ⟨⟨n, pair⟩, hmem, form, rfl⟩
    exact ⟨n, pair, form, hmem, rfl⟩
  · rintro ⟨n, pair, form, hmem, rfl⟩
    exact ⟨(n, pair), hmem, form, rfl⟩

theorem sinks_node (honce : (w.nodes.map Prod.fst).Nodup) {n : Nat} {pair : SinkPair}
    (hmem : (n, pair) ∈ w.nodes) (form : Form) : w.sinks ⟨.node n, form⟩ = some (pair.sink form) :=
  sinks_of_pair? (Keyed.lookup_of_mem honce hmem) form

/-- The sinks that are closed are those that are open at outlets. -/
theorem exists_outlet (honce : (w.nodes.map Prod.fst).Nodup) {sink : Sink}
    (hsink : sink ∈ nodeSinks w.nodes ++ [w.combined.json, w.combined.plain]) :
    ∃ x, w.sinks x = some sink := by
  rcases List.mem_append.mp hsink with hsink | hsink
  · obtain ⟨n, pair, form, hmem, rfl⟩ := mem_nodeSinks.mp hsink
    exact ⟨_, sinks_node honce hmem form⟩
  · obtain ⟨form, rfl⟩ := w.combined.mem_both.mp hsink
    exact ⟨⟨.all, form⟩, rfl⟩

/-- The open sinks with their outlets, in the order in which they are closed. -/
def inTurn (w : Writer) : List (Outlet × Sink) :=
  (w.nodes.flatMap fun (n, pair) => pair.outlets (.node n)) ++ w.combined.outlets .all

theorem inTurn_sinks (w : Writer) : w.inTurn.map Prod.snd =
    nodeSinks w.nodes ++ [w.combined.json, w.combined.plain] := by
  rw [inTurn, List.map_append, List.map_flatMap]
  rfl

theorem mem_inTurn (honce : (w.nodes.map Prod.fst).Nodup) {x : Outlet} {sink : Sink} :
    (x, sink) ∈ w.inTurn ↔ w.sinks x = some sink := by
  unfold inTurn
  rw [List.mem_append, List.mem_flatMap]
  constructor
  · rintro (⟨⟨n, pair⟩, hmem, hx⟩ | hx)
    · obtain ⟨hgroup, rfl⟩ := SinkPair.mem_outlets.mp hx
      obtain ⟨_, form⟩ := x
      cases hgroup
      exact sinks_node honce hmem form
    · obtain ⟨hgroup, rfl⟩ := SinkPair.mem_outlets.mp hx
      obtain ⟨_, form⟩ := x
      cases hgroup
      rfl
  · intro hx
    obtain ⟨n | _, form⟩ := x
    · obtain ⟨pair, hpair, rfl⟩ := Option.map_eq_some_iff.mp hx
      exact .inl ⟨(n, pair), Keyed.mem_of_lookup hpair, SinkPair.mem_outlets.mpr ⟨rfl, rfl⟩⟩
    · cases hx
      exact .inr (SinkPair.mem_outlets.mpr ⟨rfl, rfl⟩)

theorem inTurn_before (honce : (w.nodes.map Prod.fst).Nodup) :
    (w.inTurn.map Prod.fst).Pairwise Outlet.Before := by
  have hpair (g : Group) (pair : SinkPair) :
      (pair.outlets g).Pairwise fun p q => p.1.Before q.1 := by
    simp [SinkPair.outlets, Outlet.Before]
  rw [List.pairwise_map, inTurn, List.pairwise_append]
  refine ⟨List.pairwise_flatMap.mpr ⟨fun ⟨n, pair⟩ _ => hpair (.node n) pair, ?_⟩,
    hpair .all w.combined, ?_⟩
  · refine (List.pairwise_map.mp honce).imp fun {a b} hab => ?_
    rintro ⟨x, s⟩ hx ⟨y, t⟩ hy
    have hxg := (SinkPair.mem_outlets.mp hx).1
    have hyg := (SinkPair.mem_outlets.mp hy).1
    refine ⟨?_, ?_, ?_⟩
    · rintro rfl
      exact hab (Group.node.inj (hxg.symm.trans hyg))
    · intro hall
      cases hxg.symm.trans hall
    · rintro - rfl
      exact hab (Group.node.inj (hxg.symm.trans hyg))
  · rintro ⟨x, s⟩ hx ⟨y, t⟩ hy
    obtain ⟨⟨n, pair⟩, -, hx⟩ := List.mem_flatMap.mp hx
    have hxg := (SinkPair.mem_outlets.mp hx).1
    have hyg := (SinkPair.mem_outlets.mp hy).1
    refine ⟨?_, fun _ => hyg, ?_⟩
    · rintro rfl
      cases hxg.symm.trans hyg
    · rintro - rfl
      cases hxg.symm.trans hyg

theorem Holds.sinks_apart (h : w.Holds disk given) :
    Sink.Apart (nodeSinks w.nodes ++ [w.combined.json, w.combined.plain]) := by
  rw [← inTurn_sinks]
  refine List.pairwise_map.mpr ((List.pairwise_map.mp (inTurn_before h.once)).imp_of_mem ?_)
  rintro ⟨x, s⟩ ⟨y, t⟩ hs ht hxy hplace
  exact hxy.1 (h.sinks.apart x y s t ((mem_inTurn h.once).mp hs) ((mem_inTurn h.once).mp ht) hplace)

/-- Finishing writes to the files of open sinks only. -/
theorem finish_uses (honce : (w.nodes.map Prod.fst).Nodup) :
    w.finish.WritesTo w.sinks.Uses fun _ => True := by
  refine w.finish_writesTo.mono ?_ fun _ => id
  rintro _ ⟨sink, hsink, rfl⟩
  obtain ⟨x, hx⟩ := exists_outlet honce hsink
  exact ⟨x, sink, hx, rfl⟩

/-- So does letting go. -/
theorem release_uses (honce : (w.nodes.map Prod.fst).Nodup) :
    w.release.WritesTo w.sinks.Uses fun _ => True := by
  refine w.release_writesTo.mono ?_ fun _ => id
  rintro _ ⟨sink, hsink, rfl⟩
  obtain ⟨x, hx⟩ := exists_outlet honce (List.perm_append_comm.mem_iff.mp hsink)
  exact ⟨x, sink, hx, rfl⟩

theorem mem_sinks {x : Outlet} {sink : Sink} (hx : w.sinks x = some sink) :
    sink ∈ nodeSinks w.nodes ∨ sink ∈ [w.combined.json, w.combined.plain] := by
  obtain ⟨g, form⟩ := x
  cases g with
  | node n =>
    obtain ⟨pair, hpair, rfl⟩ := Option.map_eq_some_iff.mp hx
    obtain ⟨before, after, heq, -⟩ := List.lookup_eq_some_iff.mp hpair
    exact .inl (mem_nodeSinks.mpr ⟨n, pair, form, by simp [heq], rfl⟩)
  | all =>
    cases hx
    exact .inr (w.combined.mem_both.mpr ⟨form, rfl⟩)

/-- When a writer is finished, each file has an initial part of what its outlet was
given, and all of it if no failure is reported. -/
theorem finish_bytesAt? (hcwd : disk.HasCwd) (h : w.Holds disk given) {x : Outlet} {sink : Sink}
    (hx : w.sinks x = some sink) :
    ∃ part rest, given x = part ++ rest ∧
      (w.finish.run disk).1.bytesAt? sink.handle.place = some part ∧
      ((w.finish.run disk).2 = none → rest = []) := by
  rw [finish_eq]
  exact Sink.closeEach_bytesAt? hcwd h.sinks_apart (List.mem_append.mpr (mem_sinks hx))
    (h.sinks.holds x sink hx)

/-- When a writer is let go of, each file has an initial part of what its outlet was given,
and all of it if nothing is refused. -/
theorem release_bytesAt? (hcwd : disk.HasCwd) (h : w.Holds disk given) {x : Outlet} {sink : Sink}
    (hx : w.sinks x = some sink) :
    ∃ part rest, given x = part ++ rest ∧
      (w.release.run disk).1.bytesAt? sink.handle.place = some part ∧
      (w.release.Granted disk → rest = []) := by
  rw [release_eq]
  have hapart : Sink.Apart ([w.combined.json, w.combined.plain] ++ nodeSinks w.nodes) :=
    (List.pairwise_append_comm Ne.symm).mp h.sinks_apart
  exact Sink.releaseEach_bytesAt? hcwd hapart (List.mem_append.mpr (mem_sinks hx).symm)
    (h.sinks.holds x sink hx)

theorem finish_ok (h : w.finish.Granted disk) : (w.finish.run disk).2 = none := by
  rw [finish_eq] at h ⊢
  exact Sink.closeEach_ok h

end Writer

end NodeLogs
