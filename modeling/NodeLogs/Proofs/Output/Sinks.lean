import NodeLogs.Output.Sink
import NodeLogs.Proofs.Tree.History

/-! Sinks hold what they are given. What a sink over a regular file was given is what
the file holds followed by what waits in the buffer, and a refusal loses nothing of
it: only the piece at which the refusal comes is cut short. When a sink closes
without a failure, its file holds all of it. -/

namespace NodeLogs

namespace Disk

theorem write_handle (disk : Disk) (h : Handle) (bs : Bytes) :
    (disk.write h bs).2.handle.place = h.place ∧ (disk.write h bs).2.handle.born = h.born := by
  unfold write
  split
  · exact ⟨rfl, rfl⟩
  · split
    · exact ⟨rfl, rfl⟩
    · exact ⟨rfl, rfl⟩
  · exact ⟨rfl, rfl⟩

/-- A write at the end of a file adds some first bytes of the piece. -/
theorem write_at_end {disk : Disk} {h : Handle} {written : Bytes} {access : Access} (bs : Bytes)
    (hfile : disk.root.at? h.place = some (.file h.born written access))
    (hcwd : disk.HasCwd) (hend : h.offset = written.length) :
    ∃ taken, taken ≤ bs.length ∧
      (disk.write h bs).1.root.at? h.place =
        some (.file h.born (written ++ bs.take taken) access) ∧
      (disk.write h bs).2 = ⟨{ h with offset := (written ++ bs.take taken).length }, taken,
        if taken < bs.length then some .noSpace else none⟩ := by
  rcases disk.write_cases h bs with ⟨-, hnot⟩ | ⟨old, access', taken, writes, hfile', hle, hw⟩
  · exact absurd hfile (hnot _ _)
  rw [hfile] at hfile'
  cases hfile'
  refine ⟨taken, hle, ?_, ?_⟩
  · rw [hw, hend, splice_length]
    exact Node.at?_put_over hcwd.top hfile (by simp) _
  · rw [hw, hend]
    simp [Nat.min_eq_left hle]

end Disk

namespace Sink

/-- Another state of one sink. -/
def Same (sink later : Sink) : Prop :=
  later.path = sink.path ∧ later.handle.place = sink.handle.place ∧
    later.handle.born = sink.handle.born

theorem Same.refl (sink : Sink) : sink.Same sink := ⟨rfl, rfl, rfl⟩

theorem Same.trans {a b c : Sink} (hab : a.Same b) (hbc : b.Same c) : a.Same c :=
  ⟨hbc.1.trans hab.1, hbc.2.1.trans hab.2.1, hbc.2.2.trans hab.2.2⟩

/-- The sink was given these bytes: its file holds the first of them, and the others wait. -/
def Holds (disk : Disk) (sink : Sink) (bytes : Bytes) : Prop :=
  sink.buffer.length ≤ capacity ∧ ∃ written access,
    disk.root.at? sink.handle.place = some (.file sink.handle.born written access) ∧
    sink.handle.offset = written.length ∧ written ++ sink.buffer = bytes

/-- Changes elsewhere are nothing to a sink. -/
theorem Holds.frame {disk later : Disk} {sink : Sink} {bytes : Bytes} {S : Place → Prop}
    (h : sink.Holds disk bytes) (hu : Disk.Updates S disk later) (hS : ¬ S sink.handle.place) :
    sink.Holds later bytes := by
  obtain ⟨hroom, written, access, hfile, hend, hbytes⟩ := h
  exact ⟨hroom, written, access, hu.file hS hfile, hend, hbytes⟩

/-! ### Which calls sinks make -/

theorem ask_write_writesTo (h : Handle) (bs : Bytes) :
    (Work.ask (.write h bs)).WritesTo (· = h.place) fun w =>
      w.handle.place = h.place ∧ w.handle.born = h.born :=
  .ask ⟨h, bs, rfl, rfl⟩ fun disk _ => disk.write_handle h bs

theorem flush_writesTo (sink : Sink) :
    sink.flush.WritesTo (· = sink.handle.place) fun r => sink.Same r.1 := by
  unfold flush
  split
  · exact .pure (.refl sink)
  · exact (ask_write_writesTo _ _).bind fun w hw => .pure ⟨rfl, hw⟩

theorem take_writesTo (sink : Sink) (piece : Bytes) :
    (sink.take piece).WritesTo (· = sink.handle.place) fun r => sink.Same r.1 := by
  unfold take
  split
  · exact (ask_write_writesTo _ _).bind fun w hw => .pure ⟨rfl, hw⟩
  · exact .pure (.refl sink)

theorem put_writesTo (sink : Sink) (piece : Bytes) :
    (sink.put piece).WritesTo (· = sink.handle.place) fun r => sink.Same r.1 := by
  unfold put
  split
  · refine sink.flush_writesTo.bind fun r hr => ?_
    obtain ⟨later, e⟩ := r
    cases e with
    | some e => exact .pure hr
    | none =>
      exact (later.take_writesTo piece).mono (fun place h => h.trans hr.2.1) fun r' => hr.trans
  · exact sink.take_writesTo piece

theorem putLine_writesTo (sink : Sink) (line : Bytes) :
    (sink.putLine line).WritesTo (· = sink.handle.place) fun r => sink.Same r.1 := by
  unfold putLine
  refine (sink.put_writesTo line).bind fun r hr => ?_
  obtain ⟨later, e⟩ := r
  cases e with
  | some e => exact .pure hr
  | none =>
    exact ((later.put_writesTo [0x0A]).mono (fun place h => h.trans hr.2.1) fun r' => hr.trans).bind
      fun r' hr' => .pure hr'

theorem release_writesTo (sink : Sink) :
    sink.release.WritesTo (· = sink.handle.place) fun _ => True := by
  unfold release
  exact sink.flush_writesTo.bind fun _ _ => .pure trivial

theorem close_writesTo (sink : Sink) :
    sink.close.WritesTo (· = sink.handle.place) fun _ => True := by
  unfold close
  refine sink.flush_writesTo.bind fun r hr => ?_
  exact (r.1.release_writesTo.mono (fun place h => h.trans hr.2.1) fun _ => id).bind
    fun _ _ => .pure trivial

/-! ### What becomes of the bytes -/

variable {disk : Disk} {sink : Sink} {bytes : Bytes}

/-- Flushing gives the file more of the bytes, and all of them unless it is refused. -/
theorem flush_holds (hcwd : disk.HasCwd) (h : sink.Holds disk bytes) :
    (sink.flush.run disk).2.1.Holds (sink.flush.run disk).1 bytes ∧
      ((sink.flush.run disk).2.2 = none ↔ (sink.flush.run disk).2.1.buffer = []) := by
  unfold flush
  split
  next hempty => exact ⟨h, by simpa using hempty⟩
  next hbuffer =>
    obtain ⟨hroom, written, access, hfile, hend, rfl⟩ := h
    obtain ⟨taken, hle, hfile', hresult⟩ := Disk.write_at_end sink.buffer hfile hcwd hend
    simp only [Work.run_bind, Work.run_write, hresult, Work.run_pure]
    refine ⟨⟨?_, written ++ sink.buffer.take taken, access, hfile', rfl, ?_⟩, ?_⟩
    · simp
      omega
    · simp
    · rcases Nat.lt_or_ge taken sink.buffer.length with hlt | hge
      · simp [hlt]
      · simp [Nat.not_lt.mpr hge, hge]

/-- What comes of giving a sink a piece on top of its bytes: it takes all of it, or
fails and takes an initial part only. -/
def TakesPart {ε : Type} (bytes piece : Bytes)
    (result : Disk × Sink × Option ε) : Prop :=
  ∃ part rest, piece = part ++ rest ∧ result.2.1.Holds result.1 (bytes ++ part) ∧
    (result.2.2 = none ↔ rest = [])

theorem take_takesPart (hcwd : disk.HasCwd) (h : sink.Holds disk bytes) (piece : Bytes)
    (hfits : sink.buffer = [] ∨ sink.buffer.length + piece.length ≤ capacity) :
    TakesPart bytes piece ((sink.take piece).run disk) := by
  obtain ⟨hroom, written, access, hfile, hend, rfl⟩ := h
  unfold take
  split
  next hlong =>
    have hbuffer : sink.buffer = [] := by
      rcases hfits with h | h
      · exact h
      · exact List.eq_nil_of_length_eq_zero (by omega)
    obtain ⟨taken, hle, hfile', hresult⟩ := Disk.write_at_end piece hfile hcwd hend
    simp only [Work.run_bind, Work.run_write, hresult, Work.run_pure]
    refine ⟨piece.take taken, piece.drop taken, (List.take_append_drop taken piece).symm,
      ⟨hroom, written ++ piece.take taken, access, hfile', rfl, by simp [hbuffer]⟩, ?_⟩
    rcases Nat.lt_or_ge taken piece.length with hlt | hge
    · simp [hlt]
    · simp [Nat.not_lt.mpr hge, hge]
  next hshort =>
    refine ⟨piece, [], by simp, ⟨?_, written, access, hfile, hend, by simp⟩, by simp⟩
    show (sink.buffer ++ piece).length ≤ capacity
    rw [List.length_append]
    rcases hfits with h | h
    · simp [h]
      omega
    · exact h

theorem put_takesPart (hcwd : disk.HasCwd) (h : sink.Holds disk bytes) (piece : Bytes) :
    TakesPart bytes piece ((sink.put piece).run disk) := by
  unfold put
  split
  next hfull =>
    obtain ⟨hholds, hempty⟩ := flush_holds hcwd h
    have hcwd' := sink.flush.run_hasCwd hcwd
    rw [Work.run_bind]
    generalize sink.flush.run disk = result at hholds hempty hcwd' ⊢
    obtain ⟨later, flushed, e⟩ := result
    cases e with
    | some e =>
      refine ⟨[], piece, rfl, by simpa using hholds, ?_⟩
      have hpiece : piece ≠ [] := by
        rintro rfl
        have := h.1
        simp only [List.length_nil] at hfull
        omega
      simpa using hpiece
    | none => exact take_takesPart hcwd' hholds piece (.inl (hempty.mp rfl))
  next hfree => exact take_takesPart hcwd h piece (.inr (by omega))

/-- A line goes in with its line feed. -/
theorem putLine_takesPart (hcwd : disk.HasCwd) (h : sink.Holds disk bytes) (line : Bytes) :
    TakesPart bytes (line ++ [0x0A]) ((sink.putLine line).run disk) := by
  unfold putLine
  have hput := put_takesPart hcwd h line
  have hcwd' := (sink.put line).run_hasCwd hcwd
  rw [Work.run_bind]
  generalize (sink.put line).run disk = result at hput hcwd' ⊢
  obtain ⟨later, given, e⟩ := result
  obtain ⟨part, rest, rfl, hholds, hnone⟩ := hput
  cases e with
  | some e => exact ⟨part, rest ++ [0x0A], by simp, hholds, by simp⟩
  | none =>
    obtain rfl := hnone.mp rfl
    obtain ⟨part', rest', hfeed, hholds', hnone'⟩ := put_takesPart hcwd' hholds [0x0A]
    simp only [Work.run_bind, Work.run_pure]
    exact ⟨part ++ part', rest', by simp [hfeed], by simpa using hholds', by simpa using hnone'⟩

/-- The file of a sink holds the first of its bytes, and all but what waits. -/
theorem Holds.bytesAt? (h : sink.Holds disk bytes) :
    ∃ part, bytes = part ++ sink.buffer ∧ disk.bytesAt? sink.handle.place = some part := by
  obtain ⟨-, written, access, hfile, -, rfl⟩ := h
  exact ⟨written, rfl, by simp [Disk.bytesAt?, hfile, Node.bytes?]⟩

theorem flush_ok (h : sink.flush.Granted disk) : (sink.flush.run disk).2.2 = none := by
  unfold flush at h ⊢
  split
  · rfl
  next hbuffer =>
    rw [if_neg hbuffer] at h
    exact (Work.granted_bind.mp h).1 _ List.mem_cons_self

/-- Letting go of a sink leaves an initial part of its bytes in the file, and all of
them if none wait or nothing is refused. -/
theorem release_bytesAt? (hcwd : disk.HasCwd) (h : sink.Holds disk bytes) :
    ∃ part rest, bytes = part ++ rest ∧
      (sink.release.run disk).1.bytesAt? sink.handle.place = some part ∧
      (sink.buffer = [] → rest = []) ∧ (sink.release.Granted disk → rest = []) := by
  obtain ⟨hholds, hempty⟩ := flush_holds hcwd h
  obtain ⟨part, hpart, hfile⟩ := hholds.bytesAt?
  rw [(sink.flush_writesTo.run disk).2.1] at hfile
  unfold release
  simp only [Work.run_bind, Work.run_pure]
  exact ⟨part, _, hpart, hfile, fun hbuffer => hempty.mp (by simp [flush, hbuffer]),
    fun hok => hempty.mp (flush_ok (Work.granted_bind.mp hok).1)⟩

/-- Closing does as well, and reports nothing only if the file has all of the bytes. -/
theorem close_bytesAt? (hcwd : disk.HasCwd) (h : sink.Holds disk bytes) :
    ∃ part rest, bytes = part ++ rest ∧
      (sink.close.run disk).1.bytesAt? sink.handle.place = some part ∧
      ((sink.close.run disk).2 = none → rest = []) := by
  obtain ⟨hholds, hempty⟩ := flush_holds hcwd h
  have hsame := sink.flush_writesTo.run disk
  obtain ⟨part, rest, hbytes, hfile, hrest, -⟩ :=
    release_bytesAt? (sink.flush.run_hasCwd hcwd) hholds
  unfold close
  simp only [Work.run_bind, Work.run_pure]
  rw [hsame.2.1] at hfile
  exact ⟨part, rest, hbytes, hfile, fun hnone => hrest (hempty.mp (by simpa using hnone))⟩

/-! ### Where nothing is refused -/

theorem take_ok {piece : Bytes} (h : (sink.take piece).Granted disk) :
    ((sink.take piece).run disk).2.2 = none := by
  unfold take at h ⊢
  split
  next hlong =>
    rw [if_pos hlong] at h
    exact (Work.granted_bind.mp h).1 _ List.mem_cons_self
  · rfl

theorem put_ok {piece : Bytes} (h : (sink.put piece).Granted disk) :
    ((sink.put piece).run disk).2.2 = none := by
  unfold put at h ⊢
  split
  next hfull =>
    rw [if_pos hfull] at h
    obtain ⟨hflush, htake⟩ := Work.granted_bind.mp h
    have hnone := flush_ok hflush
    rw [Work.run_bind]
    generalize sink.flush.run disk = result at htake hnone ⊢
    obtain ⟨later, flushed, e⟩ := result
    subst hnone
    exact take_ok htake
  next hfree =>
    rw [if_neg hfree] at h
    exact take_ok h

theorem putLine_ok {line : Bytes} (h : (sink.putLine line).Granted disk) :
    ((sink.putLine line).run disk).2.2 = none := by
  unfold putLine at h ⊢
  obtain ⟨hput, hfeed⟩ := Work.granted_bind.mp h
  have hnone := put_ok hput
  rw [Work.run_bind]
  generalize (sink.put line).run disk = result at hfeed hnone ⊢
  obtain ⟨later, given, e⟩ := result
  subst hnone
  simp only [Work.run_bind, Work.run_pure, put_ok (Work.granted_bind.mp hfeed).1]
  rfl

theorem close_ok (h : sink.close.Granted disk) : (sink.close.run disk).2 = none := by
  unfold close at h ⊢
  simp only [Work.run_bind, Work.run_pure, flush_ok (Work.granted_bind.mp h).1]
  rfl

end Sink

end NodeLogs
