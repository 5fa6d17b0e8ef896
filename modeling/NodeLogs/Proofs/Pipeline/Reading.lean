import NodeLogs.Pipeline.Lines
import NodeLogs.Proofs.Text.Pieces
import NodeLogs.Proofs.Tree.History

/-! How the lines of a log are read. They are cut out of what comes in, in pieces of any
size, until the end or until reading fails. At each step a line is taken in, or more is read,
or nothing is left, and in every case it is known which lines are still to come. -/

namespace NodeLogs

/-! ### The lines of a log -/

/-- The lines of a log, each with its line feed. A last line without one counts if
the end of the log can be reached. -/
def linesOf (access : Access) (bytes : Bytes) : List Bytes :=
  (splitAll 0x0A bytes).dropLast.map (· ++ [0x0A]) ++
    ((splitAll 0x0A bytes).getLast?.toList.filter fun last => access ≠ .broken ∧ last ≠ [])

theorem linesOf_feed (access : Access) {cs : Bytes} (h : 0x0A ∉ cs) (rest : Bytes) :
    linesOf access (cs ++ 0x0A :: rest) = (cs ++ [0x0A]) :: linesOf access rest := by
  unfold linesOf
  have hrest := splitAll_ne_nil (0x0A : UInt8) rest
  rw [splitAll_append, splitAll_of_not_mem h, List.singleton_append,
    List.dropLast_cons_of_ne_nil hrest, List.getLast?_cons_of_ne_nil hrest]
  rfl

theorem linesOf_unended (access : Access) {cs : Bytes} (h : 0x0A ∉ cs) :
    linesOf access cs = if access ≠ .broken ∧ cs ≠ [] then [cs] else [] := by
  unfold linesOf
  rw [splitAll_of_not_mem h]
  by_cases hlast : access ≠ .broken ∧ cs ≠ []
  · rw [if_pos hlast]
    simp [hlast]
  · rw [if_neg hlast]
    simpa using hlast

/-- A line is cut off where there is a line feed. -/
theorem cutLine?_cases (bs : Bytes) :
    (0x0A ∉ bs ∧ cutLine? bs = none) ∨
      ∃ cs rest, 0x0A ∉ cs ∧ bs = cs ++ 0x0A :: rest ∧ cutLine? bs = some (cs ++ [0x0A], rest) := by
  by_cases h : 0x0A ∈ bs
  · obtain ⟨cs, rest, rfl, hcs⟩ := List.eq_append_cons_of_mem h
    exact .inr ⟨cs, rest, hcs, rfl, cutLine?_append_feed hcs rest⟩
  · exact .inl ⟨h, cutLine?_eq_none h⟩

namespace Disk

/-- The lines of the file at a place. -/
def linesAt (disk : Disk) (place : Place) : List Bytes :=
  match disk.root.at? place with
  | some (.file _ bytes access) => linesOf access bytes
  | _ => []

/-- Reading a file delivers some of what is left, or tells that nothing is. -/
theorem read_file {disk : Disk} {h : Handle} {bytes : Bytes} {access : Access} {limit : Nat}
    (hlimit : 0 < limit) (hfile : disk.root.at? h.place = some (.file h.born bytes access)) :
    (bytes.drop h.offset = [] ∧
      disk.read h limit = (disk, if access = .broken then .error .inputOutput else .ok ([], h))) ∨
    ∃ bs rest reads, bs ≠ [] ∧ bytes.drop h.offset = bs ++ rest ∧
      disk.read h limit = ({ disk with faults := { disk.faults with reads } },
        .ok (bs, { h with offset := h.offset + bs.length })) := by
  unfold read
  rw [hfile]
  simp only [if_true]
  cases hleft : bytes.drop h.offset with
  | nil => exact .inl ⟨rfl, rfl⟩
  | cons b left =>
    right
    have hpart (most : Nat) (hmost : 0 < most) : (b :: left).take most ≠ [] := by
      obtain ⟨k, rfl⟩ := Nat.exists_eq_add_one_of_ne_zero (Nat.pos_iff_ne_zero.mp hmost)
      simp
    cases takeFor? h.place disk.faults.reads with
    | none =>
      exact ⟨_, (b :: left).drop limit, disk.faults.reads, hpart limit hlimit,
        (List.take_append_drop limit _).symm, rfl⟩
    | some item =>
      obtain ⟨most, reads⟩ := item
      exact ⟨_, (b :: left).drop (min limit (max most 1)), reads, hpart _ (by omega),
        (List.take_append_drop _ _).symm, rfl⟩

end Disk

/-! ### Step by step -/

namespace Work

/-- Work goes on as other work on a later disk: at once, or when it has read. -/
inductive GoesOn {α : Type} (disk : Disk) : Work α → Disk → Work α → Prop
  | atOnce (w) : GoesOn disk w disk w
  | read (h limit) (f : Except OsError (Bytes × Handle) → Work α) :
      GoesOn disk (ask (.read h limit) >>= f) (disk.read h limit).1 (f (disk.read h limit).2)

/-- On the later disk nothing is different but what is known of reads to come. -/
theorem GoesOn.later_eq {α : Type} {disk later : Disk} {u w : Work α}
    (h : GoesOn disk u later w) :
    ∃ reads, later = { disk with faults := { disk.faults with reads } } := by
  cases h with
  | atOnce => exact ⟨disk.faults.reads, rfl⟩
  | read handle limit => exact disk.read_disk handle limit

end Work

namespace Progress

variable {p : Progress}

theorem isOver_of_going (h : p.failure = none) : p.isOver = false := by
  rw [isOver, h]
  rfl

theorem isOver_of_stopped (h : p.failure ≠ none) : p.isOver = true :=
  Option.isSome_iff_ne_none.mpr h

/-- How far a run has come with a line that its writer was handed. -/
def wrote (p : Progress) : Writer × Option SinkError → Progress
  | (writer, some e) => { p with writer, counts := p.counts + ⟨1, 0⟩, failure := some e }
  | (writer, none) => { p with writer, counts := p.counts + ⟨1, 0⟩ + ⟨0, 1⟩ }

@[simp] theorem wrote_writer (result : Writer × Option SinkError) :
    (p.wrote result).writer = result.1 := by
  obtain ⟨writer, _ | e⟩ := result <;> rfl

theorem wrote_of_written {result : Writer × Option SinkError} (h : result.2 = none) :
    p.wrote result = { p with writer := result.1, counts := p.counts + ⟨1, 0⟩ + ⟨0, 1⟩ } := by
  obtain ⟨writer, failure⟩ := result
  obtain rfl := h
  rfl

theorem wrote_failure (h : p.failure = none) (result : Writer × Option SinkError) :
    (p.wrote result).failure = result.2 := by
  obtain ⟨writer, _ | e⟩ := result
  · exact h
  · rfl

end Progress

namespace Selection

section Parts

variable (selection : Selection) (file : LogFile)

/-- Takes one line in, and goes on unless output has failed. -/
def takeLineThen (line : Bytes) (next : Progress → Work Progress) (p : Progress) :
    Work Progress := do
  let p ← selection.takeLine file line p
  if p.isOver then return p else next p

/-- Goes on with an open log of which no complete line is left, after another read. -/
def takeRead (steps : Nat) (pending : Bytes) (p : Progress) :
    Except OsError (Bytes × Handle) → Work Progress
  | .error e => return p.tell (.stoppedReading file.path e)
  | .ok ([], h) =>
    if pending.isEmpty then return p
    else selection.takeLineThen file pending (selection.takeLines file steps h []) p
  | .ok (b :: bs, h) => selection.takeLines file steps h (pending ++ b :: bs) p

variable {selection} {line : Bytes}

theorem takeLine_of_dropped (h : selection.keep? line = none) (p : Progress) :
    selection.takeLine file line p = pure { p with counts := p.counts + ⟨1, 0⟩ } := by
  unfold takeLine
  rw [h]

theorem takeLine_of_kept {r : Record} (h : selection.keep? line = some r) (p : Progress) :
    selection.takeLine file line p =
      p.writer.write r file.path file.node >>= fun result => pure (p.wrote result) := by
  unfold takeLine
  rw [h]
  refine congrArg (_ >>= ·) (funext fun result => ?_)
  obtain ⟨writer, _ | e⟩ := result <;> rfl

theorem takeLines_of_cut {pending rest : Bytes} (h : cutLine? pending = some (line, rest))
    (steps : Nat) (handle : Handle) (p : Progress) :
    selection.takeLines file (steps + 1) handle pending p =
      selection.takeLineThen file line (selection.takeLines file steps handle rest) p := by
  conv => lhs; unfold takeLines
  rw [h]
  rfl

theorem takeLines_of_uncut {pending : Bytes} (h : cutLine? pending = none) (steps : Nat)
    (handle : Handle) (p : Progress) :
    selection.takeLines file (steps + 1) handle pending p =
      Work.ask (.read handle chunkSize) >>= selection.takeRead file steps pending p := by
  conv => lhs; unfold takeLines
  rw [h]
  refine congrArg (_ >>= ·) (funext fun result => ?_)
  obtain e | ⟨_ | ⟨b, bs⟩, handle'⟩ := result <;> rfl

end Parts

/-- What the steps are like in which an open log is taken in: a line is taken, and these are
behind it; more has been read, and the same are left; or none is left. -/
inductive Next (selection : Selection) (file : LogFile) (bytes : Bytes) (access : Access)
    (steps : Nat) (h : Handle) (pending : Bytes) (p : Progress) : Work Progress → Prop
  | line {line rest : Bytes}
      (hlines : linesOf access (pending ++ bytes.drop h.offset) =
        line :: linesOf access (rest ++ bytes.drop h.offset))
      (hsteps : 2 * (bytes.length - h.offset) + rest.length < steps) :
      Next selection file bytes access steps h pending p
        (selection.takeLineThen file line (selection.takeLines file steps h rest) p)
  | more {bs : Bytes} {offset : Nat}
      (hleft : pending ++ bs ++ bytes.drop offset = pending ++ bytes.drop h.offset)
      (hsteps : 2 * (bytes.length - offset) + (pending ++ bs).length < steps) :
      Next selection file bytes access steps h pending p
        (selection.takeLines file steps { h with offset } (pending ++ bs) p)
  | ended (hlines : linesOf access (pending ++ bytes.drop h.offset) = []) :
      Next selection file bytes access steps h pending p
        (pure (if access = .broken then p.tell (.stoppedReading file.path .inputOutput) else p))

variable (selection : Selection) (file : LogFile)

/-- Taking lines in goes on in one of these ways, as long as the file is there. -/
theorem takeLines_next {disk : Disk} {steps : Nat} {h : Handle} {pending bytes : Bytes}
    {access : Access} (hsteps : 2 * (bytes.length - h.offset) + pending.length < steps + 1)
    (hfile : disk.root.at? h.place = some (.file h.born bytes access)) (p : Progress) :
    ∃ later w, Work.GoesOn disk (selection.takeLines file (steps + 1) h pending p) later w ∧
      selection.Next file bytes access steps h pending p w := by
  rcases cutLine?_cases pending with ⟨hfeed, hcut⟩ | ⟨cs, rest, hfeed, rfl, hcut⟩
  · rw [takeLines_of_uncut file hcut]
    refine ⟨_, _, .read h chunkSize _, ?_⟩
    rcases Disk.read_file (show 0 < chunkSize by decide) hfile with
      ⟨hleft, hread⟩ | ⟨bs, left, reads, hbs, hleft, hread⟩
    · rw [hread]
      have hlines : linesOf access (pending ++ bytes.drop h.offset) =
          if access ≠ .broken ∧ pending ≠ [] then [pending] else [] := by
        rw [hleft, List.append_nil, linesOf_unended access hfeed]
      by_cases hbroken : access = .broken
      · have hended : selection.Next file bytes access steps h pending p _ :=
          .ended (hlines.trans (if_neg (by simp [hbroken])))
        simpa only [if_pos hbroken, takeRead] using hended
      -- At the end of the log what is pending is a last line, unless it is empty.
      simp only [if_neg hbroken, takeRead]
      by_cases hpending : pending = []
      · have hended : selection.Next file bytes access steps h pending p _ :=
          .ended (hlines.trans (if_neg (by simp [hpending])))
        rw [if_pos (by simpa using hpending)]
        simpa only [if_neg hbroken] using hended
      · rw [if_neg (by simpa using hpending)]
        have hlength := List.length_pos_iff.mpr hpending
        refine .line ?_ (by simp only [List.length_nil]; omega)
        rw [hlines, hleft, if_pos ⟨hbroken, hpending⟩, List.append_nil]
        simp [linesOf_unended]
    · obtain ⟨b, bs, rfl⟩ := List.exists_cons_of_ne_nil hbs
      rw [hread]
      have hdrop : bytes.drop (h.offset + (b :: bs).length) = left := by
        rw [← List.drop_drop, hleft, List.drop_left]
      refine .more ?_ ?_
      · rw [hdrop, hleft, List.append_assoc]
      · have hlength := congrArg List.length hleft
        simp at hlength ⊢
        omega
  · rw [takeLines_of_cut file hcut]
    refine ⟨_, _, .atOnce _, .line ?_ ?_⟩
    · simp [linesOf_feed access hfeed]
    · simp at hsteps
      omega

variable {selection file}

/-- Calls made while an open log is taken in are reads of this log, and what its lines ask. -/
theorem takeLines_stays {ok : Disk → Prop} {calls : Call → Prop} (logs : Place → Prop)
    {Q : Progress → Prop} (htell : ∀ n p, Q p → Q (p.tell n))
    (hline : ∀ line p, Q p → (selection.takeLine file line p).Stays ok calls Q)
    (hread : ∀ h : Handle, logs h.place → calls (.read h chunkSize)) (steps : Nat) {h : Handle}
    (hlogs : logs h.place) (pending : Bytes) {p : Progress} (hp : Q p) :
    (selection.takeLines file steps h pending p).Stays ok calls Q := by
  induction steps generalizing h pending p with
  | zero => exact .pure hp
  | succ steps ih =>
    have htaken (line : Bytes) {h : Handle} (hlogs : logs h.place) (rest : Bytes) :
        (selection.takeLineThen file line (selection.takeLines file steps h rest) p).Stays
          ok calls Q := by
      refine .bind (hline line p hp) fun p' hp' => ?_
      split
      · exact .pure hp'
      · exact ih hlogs rest hp'
    cases hcut : cutLine? pending with
    | some cut =>
      rw [takeLines_of_cut file hcut]
      exact htaken cut.1 hlogs cut.2
    | none =>
      rw [takeLines_of_uncut file hcut]
      refine .bind (Q := Yields fun r => logs r.2.place)
        (.ask (hread h hlogs) fun disk _ => .intro fun r hr => ?_) fun r hr => ?_
      · rwa [Disk.read_place hr]
      obtain e | ⟨_ | ⟨b, bs⟩, h'⟩ := r
      · exact .pure (htell _ p hp)
      · simp only [takeRead]
        split
        · exact .pure hp
        · exact htaken pending hr []
      · exact ih hr _ hp

end Selection

end NodeLogs
