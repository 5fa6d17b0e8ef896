import NodeLogs.Proofs.Tree.Changes

/-! What work does on its way. Its history lists the calls it makes on a disk, and
from that come the files it opens and the places it touches. `Stays` bounds all calls
that work can make, whatever its disk looks like, and is put together as work is. -/

namespace NodeLogs

namespace Disk

/-- A file that is opened for writing is a regular file. -/
def OpensFile (disk : Disk) : Call → Prop
  | .create p => ∀ h, (disk.create p).2 = .ok h → (disk.create p).1.root.HasFile h.place
  | _ => True

instance (disk : Disk) : (c : Call) → Decidable (disk.OpensFile c)
  | .create p =>
    decidable_of_iff ((disk.create p).2.toOption.all fun h =>
        decide ((disk.create p).1.root.HasFile h.place)) <| by
      cases h : (disk.create p).2 <;> simp [OpensFile, h, Except.toOption]
  | .isDir _ | .isFile _ | .list _ | .makeDir _ | .openRead _ | .read .. | .write .. =>
    .isTrue trivial

/-- Opening for writing succeeds, and writes are accepted. -/
def Grants (disk : Disk) : Call → Prop
  | .create p => ∃ h, (disk.create p).2 = .ok h ∧ (disk.create p).1.root.HasFile h.place
  | .write h bs => (disk.write h bs).2.refusal = none
  | _ => True

instance (disk : Disk) : (c : Call) → Decidable (disk.Grants c)
  | .create p =>
    decidable_of_iff ((disk.create p).2.toOption.any fun h =>
        decide ((disk.create p).1.root.HasFile h.place)) <| by
      cases h : (disk.create p).2 <;> simp [Grants, h, Except.toOption]
  | .write h bs => inferInstanceAs (Decidable ((disk.write h bs).2.refusal = none))
  | .isDir _ | .isFile _ | .list _ | .makeDir _ | .openRead _ | .read .. => .isTrue trivial

/-- Writes are accepted. -/
def Accepts (disk : Disk) : Call → Prop
  | .write h bs => (disk.write h bs).2.refusal = none
  | _ => True

instance (disk : Disk) : (c : Call) → Decidable (disk.Accepts c)
  | .write h bs => inferInstanceAs (Decidable ((disk.write h bs).2.refusal = none))
  | .isDir _ | .isFile _ | .list _ | .makeDir _ | .create _ | .openRead _ | .read .. =>
    .isTrue trivial

theorem Grants.opensFile {disk : Disk} {c : Call} (h : disk.Grants c) : disk.OpensFile c := by
  cases c with
  | create p =>
    obtain ⟨handle, hok, hfile⟩ := h
    intro handle' hok'
    rw [hok] at hok'
    cases hok'
    exact hfile
  | isDir | isFile | list | makeDir | openRead | read | write => trivial

end Disk

/-- If there is a result, it is of a kind. -/
def Yields {ε α : Type} (P : α → Prop) : Except ε α → Prop
  | .ok a => P a
  | .error _ => True

theorem Yields.intro {ε α : Type} {P : α → Prop} {r : Except ε α} (h : ∀ a, r = .ok a → P a) :
    Yields P r := by
  cases r with
  | error e => trivial
  | ok a => exact h a rfl

namespace Work

variable {α β : Type}

@[simp] theorem bind_eq (w : Work α) (f : α → Work β) : w.bind f = w >>= f := rfl

/-! ### Runs of single calls -/

section Single

variable (disk : Disk) (p : Path) (h : Handle)

@[simp] theorem run_isDir : @run Bool (ask (.isDir p)) disk = (disk, disk.isDir p) := rfl

@[simp] theorem run_isFile : @run Bool (ask (.isFile p)) disk = (disk, disk.isFile p) := rfl

@[simp] theorem run_list :
    @run (Except OsError (List (Name × Bool))) (ask (.list p)) disk = (disk, disk.list p) := rfl

@[simp] theorem run_makeDir :
    @run (Except OsError Unit) (ask (.makeDir p)) disk = disk.makeDir p := rfl

@[simp] theorem run_create :
    @run (Except OsError Handle) (ask (.create p)) disk = disk.create p := rfl

@[simp] theorem run_openRead :
    @run (Except OsError (Handle × Nat)) (ask (.openRead p)) disk = (disk, disk.openRead p) := rfl

@[simp] theorem run_read (limit : Nat) :
    @run (Except OsError (Bytes × Handle)) (ask (.read h limit)) disk = disk.read h limit := rfl

@[simp] theorem run_write (bs : Bytes) : @run Written (ask (.write h bs)) disk = disk.write h bs := rfl

end Single

/-! ### Histories -/

/-- The calls that work makes on a disk, each with the disk it is made on. -/
def history : Work α → Disk → List (Disk × Call)
  | done _, _ => []
  | call c next, disk => (disk, c) :: (next (disk.answer c).2).history (disk.answer c).1

@[simp] theorem history_pure (a : α) (disk : Disk) : (pure a : Work α).history disk = [] := rfl

section Single

variable (disk : Disk) (p : Path) (h : Handle)

@[simp] theorem history_isDir : @history Bool (ask (.isDir p)) disk = [(disk, .isDir p)] := rfl

@[simp] theorem history_isFile : @history Bool (ask (.isFile p)) disk = [(disk, .isFile p)] := rfl

@[simp] theorem history_list :
    @history (Except OsError (List (Name × Bool))) (ask (.list p)) disk = [(disk, .list p)] := rfl

@[simp] theorem history_makeDir :
    @history (Except OsError Unit) (ask (.makeDir p)) disk = [(disk, .makeDir p)] := rfl

@[simp] theorem history_create :
    @history (Except OsError Handle) (ask (.create p)) disk = [(disk, .create p)] := rfl

@[simp] theorem history_openRead :
    @history (Except OsError (Handle × Nat)) (ask (.openRead p)) disk = [(disk, .openRead p)] := rfl

@[simp] theorem history_read (limit : Nat) :
    @history (Except OsError (Bytes × Handle)) (ask (.read h limit)) disk =
      [(disk, .read h limit)] := rfl

@[simp] theorem history_write (bs : Bytes) :
    @history Written (ask (.write h bs)) disk = [(disk, .write h bs)] := rfl

end Single

@[simp] theorem history_bind (w : Work α) (f : α → Work β) (disk : Disk) :
    (w >>= f).history disk = w.history disk ++ (f (w.run disk).2).history (w.run disk).1 := by
  induction w generalizing disk with
  | done a => rfl
  | call c next ih => exact congrArg ((disk, c) :: ·) (ih _ _)

/-- The files that work opens for writing, each under the path it is opened by. -/
def created (w : Work α) (disk : Disk) : List (Path × Handle) :=
  (w.history disk).filterMap fun (disk, c) => match c with
    | .create p => (disk.create p).2.toOption.map (p, ·)
    | _ => none

/-- The files that work opens for reading, each under the path it is opened by. -/
def opened (w : Work α) (disk : Disk) : List (Path × Handle) :=
  (w.history disk).filterMap fun (disk, c) => match c with
    | .openRead p => (disk.openRead p).toOption.map fun (h, _) => (p, h)
    | _ => none

theorem mem_created {w : Work α} {disk : Disk} {f : Path × Handle} :
    f ∈ w.created disk ↔
      ∃ d, (d, .create f.1) ∈ w.history disk ∧ (d.create f.1).2 = .ok f.2 := by
  obtain ⟨p, h⟩ := f
  unfold created
  rw [List.mem_filterMap]
  constructor
  · rintro ⟨⟨d, c⟩, hmem, hf⟩
    cases c with
    | create q =>
      dsimp only at hf
      cases hok : (d.create q).2 with
      | error e => simp [hok, Except.toOption] at hf
      | ok handle =>
        simp only [hok, Except.toOption, Option.map_some, Option.some.injEq, Prod.mk.injEq] at hf
        obtain ⟨rfl, rfl⟩ := hf
        exact ⟨d, hmem, hok⟩
    | isDir | isFile | list | makeDir | openRead | read | write => cases hf
  · rintro ⟨d, hmem, hok⟩
    exact ⟨_, hmem, by simp [hok, Except.toOption]⟩

@[simp] theorem created_pure (a : α) (disk : Disk) : (pure a : Work α).created disk = [] := rfl

@[simp] theorem opened_pure (a : α) (disk : Disk) : (pure a : Work α).opened disk = [] := rfl

@[simp] theorem created_bind (w : Work α) (f : α → Work β) (disk : Disk) :
    (w >>= f).created disk = w.created disk ++ (f (w.run disk).2).created (w.run disk).1 := by
  simp [created]

@[simp] theorem opened_bind (w : Work α) (f : α → Work β) (disk : Disk) :
    (w >>= f).opened disk = w.opened disk ++ (f (w.run disk).2).opened (w.run disk).1 := by
  simp [opened]

/-- The places at which work makes or changes something. -/
def touched (w : Work α) (disk : Disk) : List Place :=
  (w.history disk).flatMap fun (disk, c) => disk.touched c

@[simp] theorem touched_pure (a : α) (disk : Disk) : (pure a : Work α).touched disk = [] := rfl

@[simp] theorem touched_bind (w : Work α) (f : α → Work β) (disk : Disk) :
    (w >>= f).touched disk = w.touched disk ++ (f (w.run disk).2).touched (w.run disk).1 := by
  simp [touched]

/-- Work changes nothing but what it touches. -/
theorem run_updates (w : Work α) {disk : Disk} (hcwd : disk.HasCwd) :
    Disk.Updates (· ∈ w.touched disk) disk (w.run disk).1 := by
  induction w generalizing disk with
  | done a => exact .refl _ _
  | call c next ih =>
    have hc := Disk.answer_updates hcwd c
    refine (hc.mono fun place h => ?_).trans ((ih _ (hc.hasCwd hcwd)).mono fun place h => ?_)
    · exact List.mem_flatMap.mpr ⟨_, List.mem_cons_self, h⟩
    · obtain ⟨e, he, hplace⟩ := List.mem_flatMap.mp h
      exact List.mem_flatMap.mpr ⟨e, List.mem_cons_of_mem _ he, hplace⟩

/-- From any call on, work goes on to where it ends. -/
theorem updates_of_mem_history {w : Work α} {disk : Disk} (hcwd : disk.HasCwd) {e : Disk × Call}
    (he : e ∈ w.history disk) : ∃ S, Disk.Updates S e.1 (w.run disk).1 := by
  induction w generalizing disk with
  | done a => cases he
  | call c next ih =>
    rcases List.mem_cons.mp he with rfl | he
    · exact ⟨_, (call c next).run_updates hcwd⟩
    · exact ih _ ((Disk.answer_updates hcwd c).hasCwd hcwd) he

theorem run_hasCwd (w : Work α) {disk : Disk} (hcwd : disk.HasCwd) : (w.run disk).1.HasCwd :=
  (w.run_updates hcwd).hasCwd hcwd

/-- No file that is opened for writing and no write to one is refused, and what is
opened for writing is a regular file. -/
def Granted (w : Work α) (disk : Disk) : Prop :=
  ∀ e ∈ w.history disk, e.1.Grants e.2

instance (w : Work α) (disk : Disk) : Decidable (w.Granted disk) :=
  inferInstanceAs (Decidable (∀ e ∈ w.history disk, e.1.Grants e.2))

theorem granted_bind {w : Work α} {f : α → Work β} {disk : Disk} :
    (w >>= f).Granted disk ↔
      w.Granted disk ∧ (f (w.run disk).2).Granted (w.run disk).1 := by
  simp [Granted, or_imp, forall_and]

/-- No write is refused. -/
def Accepted (w : Work α) (disk : Disk) : Prop :=
  ∀ e ∈ w.history disk, e.1.Accepts e.2

instance (w : Work α) (disk : Disk) : Decidable (w.Accepted disk) :=
  inferInstanceAs (Decidable (∀ e ∈ w.history disk, e.1.Accepts e.2))

theorem accepted_bind {w : Work α} {f : α → Work β} {disk : Disk} :
    (w >>= f).Accepted disk ↔
      w.Accepted disk ∧ (f (w.run disk).2).Accepted (w.run disk).1 := by
  simp [Accepted, or_imp, forall_and]

theorem accepted_call {c : Call} {next : c.Answer → Work α} {disk : Disk} :
    (call c next).Accepted disk ↔
      disk.Accepts c ∧ (next (disk.answer c).2).Accepted (disk.answer c).1 :=
  List.forall_mem_cons

/-- What is opened for writing are regular files. Different paths lead to different
ones, and none to a place that is taken for it. -/
structure OpensOwn (w : Work α) (disk : Disk) (taken : Path → Place → Prop) : Prop where
  files : ∀ e ∈ w.history disk, e.1.OpensFile e.2
  apart : ∀ e ∈ w.created disk, ∀ f ∈ w.created disk, e.2.place = f.2.place → e.1 = f.1
  free : ∀ e ∈ w.created disk, ¬ taken e.1 e.2.place

instance (w : Work α) (disk : Disk) (taken : Path → Place → Prop)
    [∀ p place, Decidable (taken p place)] : Decidable (w.OpensOwn disk taken) :=
  decidable_of_iff ((∀ e ∈ w.history disk, e.1.OpensFile e.2) ∧
      (∀ e ∈ w.created disk, ∀ f ∈ w.created disk, e.2.place = f.2.place → e.1 = f.1) ∧
      ∀ e ∈ w.created disk, ¬ taken e.1 e.2.place)
    ⟨fun ⟨hfiles, hapart, hfree⟩ => ⟨hfiles, hapart, hfree⟩,
      fun ⟨hfiles, hapart, hfree⟩ => ⟨hfiles, hapart, hfree⟩⟩

namespace OpensOwn

variable {w : Work α} {f : α → Work β} {disk : Disk} {taken : Path → Place → Prop}

theorem mono {taken' : Path → Place → Prop} (h : w.OpensOwn disk taken)
    (htaken : ∀ p place, taken' p place → taken p place) : w.OpensOwn disk taken' :=
  { h with free := fun e he hplace => h.free e he (htaken _ _ hplace) }

theorem left (h : (w >>= f).OpensOwn disk taken) : w.OpensOwn disk taken where
  files e he := h.files e (by simp [he])
  apart e he f hf := h.apart e (by simp [he]) f (by simp [hf])
  free e he := h.free e (by simp [he])

theorem right (h : (w >>= f).OpensOwn disk taken) :
    (f (w.run disk).2).OpensOwn (w.run disk).1
      fun p place => taken p place ∨ ∃ e ∈ w.created disk, e.1 ≠ p ∧ e.2.place = place where
  files e he := h.files e (by simp [he])
  apart e he f hf := h.apart e (by simp [he]) f (by simp [hf])
  free e he := by
    rintro (htaken | ⟨e', he', hne, heq⟩)
    · exact h.free e (by simp [he]) htaken
    · exact hne (h.apart e' (by simp [he']) e (by simp [he]) heq)

end OpensOwn

/-! ### The rest of work

When it is known what the first part of work comes to, the whole is that part and the rest. -/

section Rest

variable {w : Work α} {f : α → Work β} {disk later : Disk} {a : α}
  (h : w.run disk = (later, a))
include h

theorem run_rest : (w >>= f).run disk = (f a).run later := by
  rw [run_bind, h]

theorem created_rest : (w >>= f).created disk = w.created disk ++ (f a).created later := by
  rw [created_bind, h]

theorem opened_rest : (w >>= f).opened disk = w.opened disk ++ (f a).opened later := by
  rw [opened_bind, h]

theorem granted_rest : (w >>= f).Granted disk ↔ w.Granted disk ∧ (f a).Granted later := by
  rw [granted_bind, h]

theorem accepted_rest : (w >>= f).Accepted disk ↔ w.Accepted disk ∧ (f a).Accepted later := by
  rw [accepted_bind, h]

theorem OpensOwn.rest {taken : Path → Place → Prop} (hown : (w >>= f).OpensOwn disk taken) :
    (f a).OpensOwn later
      fun p place => taken p place ∨ ∃ e ∈ w.created disk, e.1 ≠ p ∧ e.2.place = place := by
  have hright := hown.right
  rwa [h] at hright

end Rest

/-! ### Bounds on calls -/

/-- On disks of a kind, every call is of a kind and so is the result. -/
inductive Stays (ok : Disk → Prop) (P : Call → Prop) (Q : α → Prop) : Work α → Prop
  | done {a} (hQ : Q a) : Stays ok P Q (done a)
  | call {c next} (hP : P c) (hnext : ∀ disk, ok disk → Stays ok P Q (next (disk.answer c).2)) :
    Stays ok P Q (call c next)

namespace Stays

variable {ok : Disk → Prop} {P P' : Call → Prop} {Q : α → Prop} {R : β → Prop}

theorem pure {a : α} (h : Q a) : Stays ok P Q (Pure.pure a) := .done h

theorem ask {c : Call} {Q : c.Answer → Prop} (hP : P c)
    (hQ : ∀ disk, ok disk → Q (disk.answer c).2) : Stays ok P Q (Work.ask c) :=
  .call hP fun disk hdisk => .done (hQ disk hdisk)

theorem bind {w : Work α} {f : α → Work β} (hw : w.Stays ok P Q)
    (hf : ∀ a, Q a → (f a).Stays ok P R) : (w >>= f).Stays ok P R := by
  induction hw with
  | done hQ => exact hf _ hQ
  | call hP _ ih => exact .call hP ih

theorem mono {w : Work α} {Q' : α → Prop} (hw : w.Stays ok P Q) (hP : ∀ c, P c → P' c)
    (hQ : ∀ a, Q a → Q' a) : w.Stays ok P' Q' := by
  induction hw with
  | done h => exact .done (hQ _ h)
  | call h _ ih => exact .call (hP _ h) ih

theorem onDisks {ok' : Disk → Prop} {w : Work α} (hw : w.Stays ok P Q)
    (hok : ∀ disk, ok' disk → ok disk) : w.Stays ok' P Q := by
  induction hw with
  | done hQ => exact .done hQ
  | call hP _ ih => exact .call hP fun disk hdisk => ih disk (hok disk hdisk)

/-- A run whose calls keep the disk of its kind comes to a result of its kind. -/
theorem run {w : Work α} (hw : w.Stays ok P Q)
    (hok : ∀ disk c, ok disk → P c → ok (disk.answer c).1) {disk : Disk} (hdisk : ok disk) :
    Q (w.run disk).2 ∧ ok (w.run disk).1 := by
  induction hw generalizing disk with
  | done hQ => exact ⟨hQ, hdisk⟩
  | call hP _ ih => exact ih disk hdisk (hok disk _ hdisk hP)

theorem mem_history {w : Work α} (hw : w.Stays ok P Q)
    (hok : ∀ disk c, ok disk → P c → ok (disk.answer c).1) {disk : Disk} (hdisk : ok disk) :
    ∀ e ∈ w.history disk, ok e.1 ∧ P e.2 := by
  induction hw generalizing disk with
  | done => simp [history]
  | call hP _ ih =>
    intro e he
    rcases List.mem_cons.mp he with rfl | he
    · exact ⟨hdisk, hP⟩
    · exact ih disk hdisk (hok disk _ hdisk hP) e he

end Stays

/-- Work that opens nothing for reading. -/
def OpensNoLog (w : Work α) : Prop :=
  w.Stays (fun _ => True) (fun c => ∀ p, c ≠ .openRead p) fun _ => True

theorem OpensNoLog.opened_eq {w : Work α} (hw : w.OpensNoLog) (disk : Disk) : w.opened disk = [] := by
  refine List.filterMap_eq_nil_iff.mpr fun ⟨d, c⟩ he => ?_
  have hc := (Stays.mem_history hw (fun _ _ _ _ => trivial) trivial _ he).2
  cases c with
  | openRead p => exact absurd rfl (hc p)
  | isDir | isFile | list | makeDir | create | read | write => rfl

/-- Work that only writes, and only to files at places of a kind. -/
def WritesTo (S : Place → Prop) (Q : α → Prop) (w : Work α) : Prop :=
  w.Stays (fun _ => True) (fun c => ∃ h bs, c = .write h bs ∧ S h.place) Q

namespace WritesTo

variable {S : Place → Prop} {Q : α → Prop} {w : Work α}

theorem bind {R : β → Prop} {f : α → Work β} (hw : w.WritesTo S Q)
    (hf : ∀ a, Q a → (f a).WritesTo S R) : (w >>= f).WritesTo S R :=
  Stays.bind hw hf

theorem mono {T : Place → Prop} {R : α → Prop} (hw : w.WritesTo S Q)
    (hST : ∀ place, S place → T place) (hQR : ∀ a, Q a → R a) : w.WritesTo T R :=
  Stays.mono hw (fun _ ⟨h, bs, hc, hS⟩ => ⟨h, bs, hc, hST _ hS⟩) hQR

theorem run (hw : w.WritesTo S Q) (disk : Disk) : Q (w.run disk).2 :=
  (Stays.run hw (fun _ _ _ _ => trivial) trivial).1

theorem created_eq (hw : w.WritesTo S Q) (disk : Disk) : w.created disk = [] := by
  refine List.filterMap_eq_nil_iff.mpr fun ⟨d, c⟩ he => ?_
  obtain ⟨-, h, bs, rfl, -⟩ := Stays.mem_history hw (fun _ _ _ _ => trivial) trivial _ he
  rfl

theorem opensNoLog (hw : w.WritesTo S Q) : w.OpensNoLog :=
  Stays.mono hw (fun c ⟨h, bs, hc, _⟩ p hp => by cases hc.symm.trans hp) fun _ _ => trivial

theorem touched_sub (hw : w.WritesTo S Q) (disk : Disk) : ∀ place ∈ w.touched disk, S place := by
  intro place hplace
  obtain ⟨⟨d, c⟩, he, hp⟩ := List.mem_flatMap.mp hplace
  obtain ⟨-, h, bs, rfl, hS⟩ := Stays.mem_history hw (fun _ _ _ _ => trivial) trivial _ he
  rw [List.mem_singleton.mp hp]
  exact hS

/-- For work that only writes, to be accepted is all there is to be granted. -/
theorem granted (hw : w.WritesTo S Q) {disk : Disk} (hok : w.Accepted disk) : w.Granted disk := by
  intro e he
  obtain ⟨d, c⟩ := e
  obtain ⟨-, h, bs, rfl, -⟩ := Stays.mem_history hw (fun _ _ _ _ => trivial) trivial _ he
  exact hok _ he

end WritesTo

end Work

end NodeLogs
