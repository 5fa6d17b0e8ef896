import NodeLogs.Proofs.Output.Locations
import NodeLogs.Proofs.Pipeline.Bounds
import NodeLogs.Proofs.Tree.Ancestors

/-! Runs that stay below their directories. On what may come of a plain disk, a run with
its outputs below it makes only calls that are local to its directory. -/

namespace NodeLogs

namespace Disk

/-- What may come of a plain disk: nothing that was there is lost. -/
structure Becomes (disk later : Disk) : Prop where
  plain : later.Plain
  updates : ∃ S, Updates S disk later

variable {disk : Disk}

theorem Plain.becomes (h : disk.Plain) : disk.Becomes disk :=
  ⟨h, (fun _ => False), .refl _ _⟩

theorem Becomes.answer {later : Disk} (h : disk.Becomes later) (c : Call) :
    disk.Becomes (later.answer c).1 := by
  obtain ⟨hplain, S, hupdates⟩ := h
  refine ⟨hplain.answer c, fun place => S place ∨ place ∈ later.touched c, ?_⟩
  exact (hupdates.mono fun _ => .inl).trans ((answer_updates hplain.cwd c).mono fun _ => .inr)

/-- Where a path leads to a directory, it does so on all that may come of the disk. -/
theorem LeadsTo.becomes {p : Path} {place : Place} (h : disk.LeadsTo p place) (hplain : disk.Plain)
    {later : Disk} (hlater : disk.Becomes later) : later.LeadsTo p place := by
  obtain ⟨hlater, S, hupdates⟩ := hlater
  exact h.keeps hplain hlater hupdates

end Disk

namespace Work.Stays

variable {α : Type} {ok : Disk → Prop} {p q : Place} {Q : α → Prop} {w : Work α} {disk : Disk}
  (hw : w.Stays ok (fun c => c.LocalTo ok q) Q)
  (hok : ∀ disk c, ok disk → ok (disk.answer c).1) (hdisk : ok disk)
include hw hok hdisk

/-- Work that keeps to a place is not noticed at another that is apart. -/
theorem sameBelow (hapart : Place.Apart p q) : disk.SameBelow p (w.run disk).1 := by
  induction hw generalizing disk with
  | done => exact .refl p disk
  | @call c next hlocal _ ih =>
    obtain ⟨e, answer, he, hanswer⟩ := hlocal disk hdisk
    have hlater : (disk.answer c).1 = e.apply disk :=
      congrArg Prod.fst (hanswer disk hdisk (.refl q disk))
    have hfirst : disk.SameBelow p (disk.answer c).1 := by
      rw [hlater]
      exact .apply hapart he disk
    exact hfirst.trans (ih disk hdisk (hok disk c hdisk))

/-- From disks that are the same below the place that it keeps to, work comes to the same
result, and they are the same there afterwards. -/
theorem run_congr {other : Disk} (hother : ok other) (hsame : disk.SameBelow q other) :
    (w.run other).2 = (w.run disk).2 ∧ (w.run disk).1.SameBelow q (w.run other).1 := by
  induction hw generalizing disk other with
  | done => exact ⟨rfl, hsame⟩
  | @call c next hlocal _ ih =>
    obtain ⟨e, answer, he, hanswer⟩ := hlocal disk hdisk
    have hfirst := hanswer disk hdisk (.refl q disk)
    have hsecond := hanswer other hother hsame
    have hnext := ih disk hdisk (hok disk c hdisk) (hok other c hother)
    simp only [Work.run, hfirst, hsecond] at hnext ⊢
    exact hnext (hsame.applyBoth he)

end Work.Stays

namespace Path.IsUnder

variable {p : Path} {ok : Disk → Prop} {place : Place} {disk : Disk}
  (hok : Disk.AllHaveDir ok place) (h : p.IsUnder ok place) (hdisk : ok disk)
include hok h hdisk

/-- What is listed in a directory below the place is there, too. -/
theorem listed {es : List (Name × Bool)} (hlist : disk.list p = .ok es) {e : Name × Bool}
    (he : e ∈ es) : (p.child e.1).IsUnder ok place :=
  h.child hok (((hok.plain hdisk).list_names hlist).2 e he).toStepName

/-- A file that is opened for reading lies below the place. -/
theorem openRead_place {handle : Handle} {size : Nat}
    (hopen : disk.openRead p = .ok (handle, size)) : ∃ r, handle.place = place ++ r :=
  hok.spot_under h hdisk (Disk.openRead_place hopen)

end Path.IsUnder

/-! ### Runs -/

/-- Runs with outputs below their own directory ask for nothing that lies elsewhere. -/
def Bounds.inside {ok : Disk → Prop} {p sub : Path} {place : Place} (hok : Disk.AllHaveDir ok place)
    (hkeeps : ∀ disk c, ok disk → ok (disk.answer c).1) (hne : p.bytes ≠ [])
    (hp : ∀ disk, ok disk → disk.LeadsTo p place) (hsub : sub.GoesDown) : Bounds (p.join sub) :=
  have hdir := Path.Under.join hok hne hp hsub
  { ok := ok
    call := fun c => c.LocalTo ok place
    own := fun q => ∃ r, q = place ++ r
    logs := fun q => ∃ r, q = place ++ r
    within := fun q => q.IsUnder ok place
    keeps := fun hlater _ => hkeeps _ _ hlater
    dirs := Work.makeAllDirs_local hok hne hp hsub
    create := fun x => .create hok (.child hok (.inr ⟨_, hdir⟩) x.stepName)
      (Path.endsInSlash_child x.stepName _)
    created := by
      intro later handle x hlater hcreate
      have hplace := (hp later hlater).create_place (hok.plain hlater) hsub hcreate
      exact ⟨sub.inside ++ [x.name], by rw [hplace, List.append_assoc]⟩
    write := fun bs hplace => .write hok _ bs hplace
    isDir := .isDir hok
    isFile := .isFile hok
    list := .list hok
    below := fun hwithin hlater hlist he => hwithin.listed hok hlater hlist he
    openRead := .openRead hok
    opened := fun hwithin hlater hopen => hwithin.openRead_place hok hlater hopen
    read := fun limit hplace => .read _ limit hplace }

namespace Pipeline

variable (pl : Pipeline) {run : Run} {place : Place} (hne : run.path.bytes ≠ [])
  (hsub : pl.outSubdir.GoesDown)
include hne hsub

/-- A run with its outputs below it keeps to its own directory, on any plain disk where its
path leads there. -/
theorem filterRun_keepsTo : (pl.filterRun run).Stays
    (fun disk => disk.Plain ∧ disk.LeadsTo run.path place)
    (fun c => c.LocalTo (fun disk => disk.Plain ∧ disk.LeadsTo run.path place) place)
    fun _ => True := by
  have hok := Disk.allHaveDir_leadsTo run.path place
  have hp := fun (disk : Disk) (h : disk.Plain ∧ disk.LeadsTo run.path place) => h.2
  exact pl.filterRun_stays run (.inside hok Disk.keeps_leadsTo hne hp hsub)
    (.inr ⟨[], .ofLeadsTo hne hp⟩)

/-- It does so on all that may come of a plain disk. -/
theorem filterRun_local {disk : Disk} (hplain : disk.Plain) (hrun : disk.LeadsTo run.path place) :
    (pl.filterRun run).Stays disk.Becomes (fun c => c.LocalTo disk.Becomes place)
      fun _ => True := by
  have hleads (later : Disk) (h : disk.Becomes later) :
      later.Plain ∧ later.LeadsTo run.path place := ⟨h.plain, hrun.becomes hplain h⟩
  exact ((pl.filterRun_keepsTo hne hsub).onDisks hleads).mono (fun _ h => h.mono hleads) fun _ => id

end Pipeline

end NodeLogs
