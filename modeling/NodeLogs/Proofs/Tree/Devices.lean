import NodeLogs.Proofs.Tree.Plain

/-! Devices in a tree. No call makes a device, so that a tree without devices stays one, and
on a plain disk without devices what is opened for writing is a regular file. -/

namespace NodeLogs

namespace Node

mutual

/-- All devices in a tree are of a kind. -/
def devicesAre (p : Device → Bool) : Node → Bool
  | dir es => allDevicesAre p es
  | device kind => p kind
  | _ => true

def allDevicesAre (p : Device → Bool) : List (Name × Node) → Bool
  | [] => true
  | (_, n) :: es => n.devicesAre p && allDevicesAre p es

end

/-- There are directories, files and links only. -/
def hasNoDevice (n : Node) : Bool :=
  n.devicesAre fun _ => false

variable {p : Device → Bool}

theorem devicesAre_dir {es : List (Name × Node)} :
    (dir es).devicesAre p ↔ ∀ e ∈ es, e.2.devicesAre p := by
  conv => lhs; unfold devicesAre
  induction es with
  | nil => simp [allDevicesAre]
  | cons e es ih =>
    obtain ⟨name, n⟩ := e
    unfold allDevicesAre
    simp [ih]

theorem devicesAre_file (born : Nat) (bytes : Bytes) (access : Access) :
    (file born bytes access).devicesAre p := by
  unfold devicesAre; rfl

theorem devicesAre_at? {root n : Node} (hroot : root.devicesAre p) {place : Place}
    (h : root.at? place = some n) : n.devicesAre p := by
  induction place generalizing root with
  | nil =>
    cases h
    exact hroot
  | cons name place ih =>
    rw [at?_cons] at h
    obtain ⟨c, hc, hn⟩ := Option.bind_eq_some_iff.mp h
    cases root with
    | dir es => exact ih (devicesAre_dir.mp hroot _ (Keyed.mem_of_lookup hc)) hn
    | file | link | device => cases hc

/-- A device that stands somewhere is of the kind. -/
theorem of_devicesAre {root : Node} (hroot : root.devicesAre p) {place : Place} {kind : Device}
    (h : root.at? place = some (device kind)) : p kind := by
  have := devicesAre_at? hroot h
  unfold devicesAre at this
  exact this

theorem devicesAre_put {root v : Node} (hroot : root.devicesAre p) (hv : v.devicesAre p)
    (place : Place) : (root.put place v).devicesAre p := by
  induction place generalizing root with
  | nil => rwa [put_nil]
  | cons name place ih =>
    cases root with
    | dir es =>
      have hes := devicesAre_dir.mp hroot
      by_cases hplace : place = []
      · rw [hplace, put_singleton]
        refine devicesAre_dir.mpr fun e he => ?_
        rcases Keyed.mem_set he with rfl | he
        · exact hv
        · exact hes e he
      · rw [put_cons es name hplace]
        refine devicesAre_dir.mpr fun e he => ?_
        rcases Keyed.mem_alter_map he with he | ⟨u, hu, rfl⟩
        · exact hes e he
        · exact ih (hes _ hu)
    | file | link | device => rwa [put_of_not_dir (by simp)]

end Node

namespace Disk

variable {disk : Disk}

/-- No call makes a device. -/
theorem answer_devicesAre {p : Device → Bool} (h : disk.root.devicesAre p) (c : Call) :
    (disk.answer c).1.root.devicesAre p := by
  have hroot := disk.answer_alters c
  generalize (disk.answer c).1.root = root at hroot ⊢
  cases hroot with
  | not => exact h
  | make _ hv =>
    refine Node.devicesAre_put h ?_ _
    rcases hv with rfl | rfl
    · exact Node.devicesAre_dir.mpr (by simp)
    · exact Node.devicesAre_file ..
  | overwrite new _ => exact Node.devicesAre_put h (Node.devicesAre_file ..) _

/-- On a plain disk without devices, what is opened for writing is a regular file. -/
theorem Plain.opensFile (hplain : disk.Plain) (hdevices : disk.root.hasNoDevice) (c : Call) :
    disk.OpensFile c := by
  cases c with
  | isDir | isFile | list | makeDir | openRead | read | write => trivial
  | create p =>
    intro h hok
    rcases disk.create_cases p with ⟨e, hc⟩ | ⟨place, name, hloc, hc⟩ |
      ⟨place, born, bytes, access, -, hold, hc⟩ | ⟨place, hloc, hnot, hc⟩
    all_goals rw [hc] at hok ⊢; cases hok
    · obtain ⟨hdir, -⟩ := Node.locate_names hplain.cwd hloc
      exact ⟨_, _, _, Node.at?_put_self hdir name _ []⟩
    · exact ⟨_, _, _, Node.at?_put_over hplain.cwd.top hold (by simp) _⟩
    · obtain ⟨n, hn, -⟩ := Node.locate_names hplain.cwd hloc
      cases n with
      | file born bytes access => exact absurd hn (hnot _ _ _)
      | link target => exact absurd hn (Node.not_link hplain.tree _ _)
      | device kind => exact absurd (Node.of_devicesAre hdevices hn) Bool.false_ne_true
      | dir es =>
        have hslash : p.endsInSlash = false := by
          cases h : p.endsInSlash with
          | false => rfl
          | true =>
            unfold create at hc
            rw [if_pos h] at hc
            split at hc <;> cases (Prod.mk.inj hc).2
        simp [create, hslash, hloc, hn] at hc

end Disk

namespace Work

variable {α : Type} {disk : Disk}

/-- What all calls keep holds all along. -/
theorem history_keeps {ok : Disk → Prop} (hok : ∀ disk c, ok disk → ok (disk.answer c).1)
    (w : Work α) (hdisk : ok disk) : ok (w.run disk).1 ∧ ∀ e ∈ w.history disk, ok e.1 := by
  induction w generalizing disk with
  | done a => exact ⟨hdisk, by simp [history]⟩
  | call c next ih =>
    obtain ⟨hrun, hhistory⟩ := ih _ (hok disk c hdisk)
    exact ⟨hrun, List.forall_mem_cons.mpr ⟨hdisk, hhistory⟩⟩

/-- On a plain disk without devices, work opens nothing but regular files for writing. -/
theorem opensFiles (w : Work α) (hplain : disk.Plain) (hdevices : disk.root.hasNoDevice) :
    ∀ e ∈ w.history disk, e.1.OpensFile e.2 := by
  have hok (later : Disk) (c : Call) (h : later.Plain ∧ later.root.hasNoDevice) :
      (later.answer c).1.Plain ∧ (later.answer c).1.root.hasNoDevice :=
    ⟨h.1.answer c, Disk.answer_devicesAre h.2 c⟩
  have hkeeps := (w.history_keeps hok ⟨hplain, hdevices⟩).2
  exact fun e he => (hkeeps e he).1.opensFile (hkeeps e he).2 e.2

end Work

end NodeLogs
