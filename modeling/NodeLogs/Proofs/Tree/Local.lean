import NodeLogs.Proofs.Tree.Apart
import NodeLogs.Proofs.Tree.Plain

/-! Calls below a directory. On plain disks, what a path below a directory comes to
depends on nothing but what lies there, and so do all calls on such paths and on files
that are open there. -/

namespace NodeLogs

namespace Node

variable {root other : Node} {here : Place}

/-- Steps that go down see only what lies below where they begin. -/
theorem go_congr (hroot : root.isPlain) (hother : other.isPlain) {steps : List Name}
    (hdown : Path.dots ∉ steps) (hsame : ∀ r, other.at? (here ++ r) = root.at? (here ++ r)) :
    other.go here steps = root.go here steps := by
  induction steps generalizing here with
  | nil => rfl
  | cons step rest ih =>
    obtain ⟨hdots, hrest⟩ := not_or.mp (mt List.mem_cons.mpr hdown)
    by_cases hdot : step = Path.dot
    · rw [hdot, go_dot, go_dot, ih hrest hsame]
    rw [go_cons hroot hdot (Ne.symm hdots), go_cons hother hdot (Ne.symm hdots), hsame [step],
      ih hrest fun r => by simpa using hsame (step :: r)]

end Node

/-! ### Paths below a directory -/

/-- On disks of a kind, following a path comes to taking steps down from a place. -/
structure Path.Under (p : Path) (ok : Disk → Prop) (place : Place) (steps : List Name) : Prop where
  ne_nil : p.bytes ≠ []
  down : Path.dots ∉ steps
  go_eq : ∀ disk, ok disk → disk.root.go (disk.start p) p.names = disk.root.go place steps

/-- On disks of a kind, a path stays below a place, or names nothing at all. -/
def Path.IsUnder (p : Path) (ok : Disk → Prop) (place : Place) : Prop :=
  0 ∈ p.bytes ∨ ∃ steps, p.Under ok place steps

theorem Path.Under.down_append {p : Path} {ok : Disk → Prop} {place : Place} {steps : List Name}
    (h : p.Under ok place steps) :
    Path.dots ∉ steps ++ if p.endsInSlash then [Path.dot] else [] := by
  rw [List.mem_append, not_or]
  refine ⟨h.down, ?_⟩
  split
  · decide
  · exact List.not_mem_nil

/-- The disks of a kind are plain, and on all of them there is a directory at the place. -/
structure Disk.AllHaveDir (ok : Disk → Prop) (place : Place) : Prop where
  plain : ∀ {disk}, ok disk → disk.Plain
  hasDir : ∀ {disk}, ok disk → disk.root.HasDir place

namespace Disk

theorem allHaveDir_leadsTo (p : Path) (place : Place) :
    AllHaveDir (fun disk => disk.Plain ∧ disk.LeadsTo p place) place where
  plain h := h.1
  hasDir h := h.2.hasDir

/-- The plain disks on which a path leads to a directory stay so. -/
theorem keeps_leadsTo {p : Path} {place : Place} (disk : Disk) (c : Call)
    (h : disk.Plain ∧ disk.LeadsTo p place) :
    (disk.answer c).1.Plain ∧ (disk.answer c).1.LeadsTo p place :=
  ⟨h.1.answer c, h.2.answer h.1 c⟩

variable {ok : Disk → Prop} {place : Place} {disk other : Disk} {p : Path}

theorem SameBelow.at? (h : SameBelow place disk other) (r : Place) :
    other.root.at? (place ++ r) = disk.root.at? (place ++ r) := by
  rw [Node.at?_append, Node.at?_append, h.node]

namespace AllHaveDir

variable (hok : AllHaveDir ok place)
include hok

theorem locate_under {steps : List Name} (h : p.Under ok place steps) (hdisk : ok disk)
    (followLast : Bool) : disk.locate followLast p =
      if 0 ∈ p.bytes then .error .zeroByte
      else disk.root.go place (steps ++ if p.endsInSlash then [Path.dot] else []) := by
  have hplain := hok.plain hdisk
  rw [hplain.locate_eq, if_neg h.ne_nil, Path.steps_eq,
    Node.go_append hplain.tree (hplain.hasDir_start p), h.go_eq disk hdisk,
    Node.go_append hplain.tree (hok.hasDir hdisk)]

/-- Such a path names the same on disks that look the same below the place. -/
theorem locate_congr (h : p.IsUnder ok place) (hdisk : ok disk) (hother : ok other)
    (hsame : ∀ r, other.root.at? (place ++ r) = disk.root.at? (place ++ r)) (followLast : Bool) :
    other.locate followLast p = disk.locate followLast p := by
  rcases h with hzero | ⟨steps, h⟩
  · rw [(hok.plain hdisk).locate_eq, (hok.plain hother).locate_eq, if_pos hzero, if_pos hzero]
  · rw [hok.locate_under h hdisk, hok.locate_under h hother,
      Node.go_congr (hok.plain hdisk).tree (hok.plain hother).tree h.down_append hsame]

/-- What such a path names lies below the place. -/
theorem spot_under (h : p.IsUnder ok place) (hdisk : ok disk) {followLast : Bool} {spot : Spot}
    (hloc : disk.locate followLast p = .ok spot) : ∃ r, spot.place = place ++ r := by
  rcases h with hzero | ⟨steps, h⟩
  · rw [(hok.plain hdisk).locate_eq, if_pos hzero] at hloc
    cases hloc
  · rw [hok.locate_under h hdisk] at hloc
    split at hloc
    · cases hloc
    · exact ⟨_, Node.go_place (hok.plain hdisk).tree h.down_append hloc⟩

/-- At the place itself there is a directory, so what is no directory lies below it. -/
theorem ne_nil_of_at? (hdisk : ok disk) {r : Place} (hn : ∀ es, disk.root.at? (place ++ r) ≠ some (.dir es)) :
    r ≠ [] := by
  rintro rfl
  obtain ⟨es, hes⟩ := hok.hasDir hdisk
  exact hn es (by simpa using hes)

theorem free_under (h : p.IsUnder ok place) (hdisk : ok disk) {followLast : Bool} {q : Place}
    {name : Name} (hloc : disk.locate followLast p = .ok (.free q name)) :
    ∃ r, r ≠ [] ∧ q ++ [name] = place ++ r := by
  obtain ⟨r, hr⟩ := hok.spot_under h hdisk hloc
  have hr : q ++ [name] = place ++ r := hr
  have hnone := (Node.locate_names (hok.plain hdisk).cwd hloc).2
  rw [hr] at hnone
  exact ⟨r, hok.ne_nil_of_at? hdisk (by simp [hnone]), hr⟩

theorem node_congr (h : p.IsUnder ok place) (hdisk : ok disk) (hother : ok other)
    (hsame : ∀ r, other.root.at? (place ++ r) = disk.root.at? (place ++ r)) :
    other.node p = disk.node p := by
  unfold node
  rw [hok.locate_congr h hdisk hother hsame]
  cases hloc : disk.locate true p with
  | error e => rfl
  | ok spot =>
    cases spot with
    | free => rfl
    | found q =>
      obtain ⟨r, rfl⟩ : ∃ r, q = place ++ r := hok.spot_under h hdisk hloc
      simp only [hsame r]

theorem openRead_congr (h : p.IsUnder ok place) (hdisk : ok disk) (hother : ok other)
    (hsame : ∀ r, other.root.at? (place ++ r) = disk.root.at? (place ++ r)) :
    other.openRead p = disk.openRead p := by
  unfold openRead
  rw [hok.locate_congr h hdisk hother hsame]
  cases hloc : disk.locate true p with
  | error e => rfl
  | ok spot =>
    cases spot with
    | free => rfl
    | found q =>
      obtain ⟨r, rfl⟩ : ∃ r, q = place ++ r := hok.spot_under h hdisk hloc
      simp only [hsame r]

end AllHaveDir

end Disk

/-! ### Reading and writing -/

namespace Disk

variable {disk other : Disk} {h : Handle}

/-- How many bytes a device delivers or takes, if its next item says so. -/
def readSize (disk : Disk) (h : Handle) (limit : Nat) : Nat :=
  (firstFor? h.place disk.faults.reads).elim limit fun most => min limit (max most 1)

def writeSize (disk : Disk) (h : Handle) (bs : Bytes) : Nat :=
  (firstFor? h.place disk.faults.writes).elim bs.length fun most? =>
    most?.elim bs.length (min · bs.length)

/-- A read of what is left of a file uses up what its device does next. -/
theorem read_left {bytes : Bytes} {access : Access} {limit : Nat}
    (hn : disk.root.at? h.place = some (.file h.born bytes access)) (hleft : bytes.drop h.offset ≠ []) :
    disk.read h limit = (Change.apply { read := some h.place } disk,
      .ok ((bytes.drop h.offset).take (disk.readSize h limit),
        { h with offset := h.offset + ((bytes.drop h.offset).take (disk.readSize h limit)).length })) := by
  obtain ⟨b, left, hleft⟩ := List.exists_cons_of_ne_nil hleft
  unfold read readSize Change.apply
  simp only [hn, if_true, hleft, takeFor?_eq, Option.elim_some, Option.elim_none]
  cases hfirst : firstFor? h.place disk.faults.reads with
  | none => rw [dropFor_of_none hfirst]; rfl
  | some most => rfl

theorem read_idle {limit : Nat} (hsame : other.root.at? h.place = disk.root.at? h.place)
    (hend : ∀ bytes access, disk.root.at? h.place = some (.file h.born bytes access) →
      bytes.drop h.offset = []) : other.read h limit = (other, (disk.read h limit).2) := by
  unfold read
  rw [hsame]
  cases hn : disk.root.at? h.place with
  | none => rfl
  | some n =>
    cases n with
    | dir | link => rfl
    | device kind => cases kind <;> rfl
    | file born bytes access =>
      by_cases hborn : born = h.born
      · simp [hborn, hend bytes access (hborn ▸ hn)]
      · simp [hborn]

theorem write_file {old : Bytes} {access : Access} (bs : Bytes)
    (hn : disk.root.at? h.place = some (.file h.born old access)) :
    disk.write h bs = (Change.apply
      { put := some (h.place, .file h.born (splice old h.offset (bs.take (disk.writeSize h bs))) access)
        written := some h.place } disk,
      ⟨{ h with offset := h.offset + disk.writeSize h bs }, disk.writeSize h bs,
        if disk.writeSize h bs < bs.length then some .noSpace else none⟩) := by
  unfold write writeSize Change.apply
  simp only [hn, if_true, takeFor?_eq, Option.elim_some, Option.elim_none]
  cases hfirst : firstFor? h.place disk.faults.writes with
  | none => rw [dropFor_of_none hfirst]; rfl
  | some most? => cases most? <;> rfl

theorem write_idle (bs : Bytes) (hsame : other.root.at? h.place = disk.root.at? h.place)
    (hnot : ∀ old access, disk.root.at? h.place ≠ some (.file h.born old access)) :
    other.write h bs = (other, (disk.write h bs).2) := by
  unfold write
  rw [hsame]
  cases hn : disk.root.at? h.place with
  | none => rfl
  | some n =>
    cases n with
    | dir | link => rfl
    | device kind => cases kind <;> rfl
    | file born old access =>
      have hborn : born ≠ h.born := fun hborn => hnot old access (hborn ▸ hn)
      simp [hborn]

end Disk

/-! ### Calls below a directory -/

namespace Call.LocalTo

variable {ok : Disk → Prop} {place : Place}

theorem of_look {c : Call} (h : ∀ disk other, ok disk → ok other → disk.SameBelow place other →
    other.answer c = (other, (disk.answer c).2)) : c.LocalTo ok place :=
  fun disk hdisk => ⟨{}, (disk.answer c).2, .nothing place,
    fun other hother hsame => h disk other hdisk hother hsame⟩

variable (hok : Disk.AllHaveDir ok place) {p : Path}
include hok

theorem isDir (h : p.IsUnder ok place) : (Call.isDir p).LocalTo ok place :=
  of_look fun disk other hdisk hother hsame => by
    simp only [Disk.answer, Disk.isDir, hok.node_congr h hdisk hother hsame.at?]

theorem isFile (h : p.IsUnder ok place) : (Call.isFile p).LocalTo ok place :=
  of_look fun disk other hdisk hother hsame => by
    simp only [Disk.answer, Disk.isFile, hok.node_congr h hdisk hother hsame.at?]

theorem list (h : p.IsUnder ok place) : (Call.list p).LocalTo ok place :=
  of_look fun disk other hdisk hother hsame => by
    simp only [Disk.answer, Disk.list, hok.node_congr h hdisk hother hsame.at?]

theorem openRead (h : p.IsUnder ok place) : (Call.openRead p).LocalTo ok place :=
  of_look fun disk other hdisk hother hsame => by
    simp only [Disk.answer, hok.openRead_congr h hdisk hother hsame.at?]

theorem makeDir (h : (Disk.withoutSlashes p).IsUnder ok place) :
    (Call.makeDir p).LocalTo ok place := by
  intro disk hdisk
  have hcongr (other : Disk) (hother : ok other) (hsame : disk.SameBelow place other) :=
    hok.locate_congr h hdisk hother hsame.at? false
  cases hloc : disk.locate false (Disk.withoutSlashes p) with
  | error e =>
    refine ⟨{}, .error e, .nothing place, fun other hother hsame => ?_⟩
    simp only [Disk.answer, Disk.makeDir, hcongr other hother hsame, hloc]
    rfl
  | ok spot =>
    cases spot with
    | found q =>
      refine ⟨{}, .error .alreadyExists, .nothing place, fun other hother hsame => ?_⟩
      simp only [Disk.answer, Disk.makeDir, hcongr other hother hsame, hloc]
      rfl
    | free q name =>
      obtain ⟨r, hne, hr⟩ := hok.free_under h hdisk hloc
      refine ⟨_, .ok (), .ofPut place hne (.dir []) false, fun other hother hsame => ?_⟩
      simp only [Disk.answer, Disk.makeDir, hcongr other hother hsame, hloc, hr]
      rfl

theorem create (h : p.IsUnder ok place) (hslash : p.endsInSlash = false) :
    (Call.create p).LocalTo ok place := by
  intro disk hdisk
  have hcongr (other : Disk) (hother : ok other) (hsame : disk.SameBelow place other) :=
    hok.locate_congr h hdisk hother hsame.at? true
  cases hloc : disk.locate true p with
  | error e =>
    refine ⟨{}, .error e, .nothing place, fun other hother hsame => ?_⟩
    simp only [Disk.answer, Disk.create, hslash, hcongr other hother hsame, hloc]
    rfl
  | ok spot =>
    cases spot with
    | free q name =>
      obtain ⟨r, hne, hr⟩ := hok.free_under h hdisk hloc
      refine ⟨_, .ok ⟨place ++ r, disk.removals, 0⟩,
        .ofPut place hne (.file disk.removals [] .normal) false, fun other hother hsame => ?_⟩
      rw [← hsame.removals]
      simp only [Disk.answer, Disk.create, hslash, hcongr other hother hsame, hloc, hr]
      rfl
    | found q =>
      obtain ⟨r, rfl⟩ : ∃ r, q = place ++ r := hok.spot_under h hdisk hloc
      cases hn : disk.root.at? (place ++ r) with
      | none =>
        refine ⟨{}, .ok ⟨place ++ r, 0, 0⟩, .nothing place, fun other hother hsame => ?_⟩
        simp only [Disk.answer, Disk.create, hslash, hcongr other hother hsame, hloc, hsame.at? r, hn]
        rfl
      | some n =>
        cases n with
        | dir es =>
          refine ⟨{}, .error .isADirectory, .nothing place, fun other hother hsame => ?_⟩
          simp only [Disk.answer, Disk.create, hslash, hcongr other hother hsame, hloc,
            hsame.at? r, hn]
          rfl
        | file born bytes access =>
          have hne : r ≠ [] := hok.ne_nil_of_at? hdisk (by simp [hn])
          refine ⟨_, .ok ⟨place ++ r, born, 0⟩, .ofPut place hne (.file born [] access) false,
            fun other hother hsame => ?_⟩
          simp only [Disk.answer, Disk.create, hslash, hcongr other hother hsame, hloc,
            hsame.at? r, hn]
          rfl
        | link | device =>
          refine ⟨{}, .ok ⟨place ++ r, 0, 0⟩, .nothing place, fun other hother hsame => ?_⟩
          simp only [Disk.answer, Disk.create, hslash, hcongr other hother hsame, hloc,
            hsame.at? r, hn]
          rfl

omit hok in
theorem read (h : Handle) (limit : Nat) (hplace : ∃ r, h.place = place ++ r) :
    (Call.read h limit).LocalTo ok place := by
  intro disk _
  obtain ⟨r, hr⟩ := hplace
  by_cases hfile : ∃ bytes access, disk.root.at? h.place = some (.file h.born bytes access) ∧
      bytes.drop h.offset ≠ []
  · obtain ⟨bytes, access, hn, hleft⟩ := hfile
    refine ⟨_, (disk.read h limit).2, .ofRead place r, fun other _ hsame => ?_⟩
    have hn' : other.root.at? h.place = some (.file h.born bytes access) := by
      rw [hr, hsame.at?, ← hr, hn]
    have hsize : other.readSize h limit = disk.readSize h limit := by
      simp only [Disk.readSize, hr, firstFor?_eq_head?, hsame.reads]
    simp only [Disk.answer, Disk.read_left hn hleft, Disk.read_left hn' hleft, hsize, hr]
  · refine ⟨{}, (disk.read h limit).2, .nothing place, fun other _ hsame => ?_⟩
    exact Disk.read_idle (by rw [hr, hsame.at?]) fun bytes access hn =>
      Classical.byContradiction fun hleft => hfile ⟨bytes, access, hn, hleft⟩

theorem write (h : Handle) (bs : Bytes) (hplace : ∃ r, h.place = place ++ r) :
    (Call.write h bs).LocalTo ok place := by
  intro disk hdisk
  obtain ⟨r, hr⟩ := hplace
  by_cases hfile : ∃ old access, disk.root.at? h.place = some (.file h.born old access)
  · obtain ⟨old, access, hn⟩ := hfile
    have hne : r ≠ [] := hok.ne_nil_of_at? hdisk (by simp [← hr, hn])
    let new := splice old h.offset (bs.take (disk.writeSize h bs))
    refine ⟨_, (disk.write h bs).2, .ofPut place hne (.file h.born new access) true,
      fun other _ hsame => ?_⟩
    have hn' : other.root.at? h.place = some (.file h.born old access) := by
      rw [hr, hsame.at?, ← hr, hn]
    have hsize : other.writeSize h bs = disk.writeSize h bs := by
      simp only [Disk.writeSize, hr, firstFor?_eq_head?, hsame.writes]
    simp only [Disk.answer, Disk.write_file bs hn, Disk.write_file bs hn', hsize, hr, if_true, new]
  · refine ⟨{}, (disk.write h bs).2, .nothing place, fun other _ hsame => ?_⟩
    exact Disk.write_idle bs (by rw [hr, hsame.at?]) fun old access hn => hfile ⟨old, access, hn⟩

end Call.LocalTo

end NodeLogs
