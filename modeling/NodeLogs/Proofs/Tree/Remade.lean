import NodeLogs.Proofs.Tree.Ancestors
import NodeLogs.Proofs.Tree.Devices

/-! Making a directory below another again, on what was left the first time. If it was made
it is there, and if it could not be made then it still cannot, for the same reason. Either
way nothing changes. -/

namespace NodeLogs

namespace Node

variable {root : Node} {here : Place}

/-! ### Why steps do not lead on -/

/-- What keeps steps from leading to a directory, if they do not. -/
def stop? (root : Node) (here : Place) (steps : List Name) : Option OsError :=
  match root.go here steps with
  | .error e => some e
  | .ok (.free ..) => some .notFound
  | .ok (.found place) => if root.HasDir place then none else some .notADirectory

theorem stop?_cons (hroot : root.isPlain) {step : Name} (hdot : step ≠ Path.dot)
    (hdots : step ≠ Path.dots) (rest : List Name) :
    root.stop? here (step :: rest) =
      if nameLimit < step.length then some .nameTooLong
      else match root.at? (here ++ [step]) with
        | none => some .notFound
        | some (.dir _) => root.stop? (here ++ [step]) rest
        | some _ => some .notADirectory := by
  unfold stop?
  rw [go_cons hroot hdot hdots]
  by_cases hlong : nameLimit < step.length
  · simp [hlong]
  simp only [if_neg hlong]
  cases hn : root.at? (here ++ [step]) with
  | none => cases rest <;> rfl
  | some n => cases n <;> cases rest <;> simp [HasDir, hn]

/-- Single dots do not matter. -/
theorem stop?_filter (hroot : root.isPlain) {steps : List Name} (hdown : Path.dots ∉ steps) :
    root.stop? here (steps.filter (· ≠ Path.dot)) = root.stop? here steps := by
  induction steps generalizing here with
  | nil => rfl
  | cons step rest ih =>
    obtain ⟨hdots, hrest⟩ := not_or.mp (mt List.mem_cons.mpr hdown)
    by_cases hdot : step = Path.dot
    · rw [List.filter_cons_of_neg (by simpa using hdot), ih hrest, hdot, stop?, stop?, go_dot]
    · rw [List.filter_cons_of_pos (by simpa using hdot), stop?_cons hroot hdot (Ne.symm hdots),
        stop?_cons hroot hdot (Ne.symm hdots), ih hrest]

theorem stop?_eq_none (hroot : root.isPlain) {steps : List Name} (hdown : Path.dots ∉ steps) :
    root.stop? here steps = none ↔ root.HasDir (here ++ steps.filter (· ≠ Path.dot)) := by
  constructor
  · intro h
    unfold stop? at h
    split at h
    · cases h
    · cases h
    next place hgo =>
      split at h
      next hdir => exact go_place hroot hdown hgo ▸ hdir
      next => cases h
  · intro h
    rw [stop?, go_of_hasDir hroot hdown h]
    exact if_pos h

/-- Where something else is in the place of a directory. -/
theorem stop?_of_at? (hroot : root.isPlain) (hhere : root.HasDir here) {steps : List Name}
    (hsteps : ∀ step ∈ steps, step ≠ Path.dot ∧ step ≠ Path.dots) {n : Node}
    (hn : root.at? (here ++ steps) = some n) (hdir : ∀ es, n ≠ .dir es) :
    root.stop? here steps = some .notADirectory := by
  induction steps generalizing here with
  | nil =>
    obtain ⟨es, hes⟩ := hhere
    rw [List.append_nil, hes] at hn
    cases hn
    exact absurd rfl (hdir es)
  | cons step rest ih =>
    obtain ⟨⟨hdot, hdots⟩, hrest⟩ := List.forall_mem_cons.mp hsteps
    have hsplit : here ++ step :: rest = here ++ [step] ++ rest := by simp
    rw [hsplit] at hn
    have hname : EntryName step := by
      by_cases hnil : rest = []
      · subst hnil
        rw [List.append_nil] at hn
        exact entryName_of_at? hroot hn
      · obtain ⟨es, hes⟩ := HasDir.of_append hnil hn
        exact entryName_of_at? hroot hes
    rw [stop?_cons hroot hdot hdots, if_neg (Nat.not_lt.mpr hname.length_le)]
    by_cases hnil : rest = []
    · subst hnil
      rw [List.append_nil] at hn
      rw [hn]
      cases n with
      | dir es => exact absurd rfl (hdir es)
      | file | link | device => rfl
    · have hdir' := HasDir.of_append hnil hn
      obtain ⟨es, hes⟩ := hdir'
      rw [hes]
      exact ih ⟨es, hes⟩ hrest hn

/-- What stops steps stops all that go on behind them. -/
theorem go_of_stop? (hroot : root.isPlain) (hhere : root.HasDir here) {steps above : List Name}
    {name : Name} (hdown : Path.dots ∉ steps) (hsteps : steps.filter (· ≠ Path.dot) = above ++ [name])
    {e : OsError} (h : root.stop? here above = some e) (rest : List Name) :
    root.go here (steps ++ rest) = .error e := by
  obtain ⟨first, second, rfl, rfl, hsecond⟩ := List.filter_eq_append_iff.mp hsteps
  have hne : second ≠ [] := by
    rintro rfl
    cases hsecond
  rw [stop?_filter hroot fun hmem => hdown (List.mem_append_left _ hmem)] at h
  rw [List.append_assoc, go_append hroot hhere]
  unfold stop? at h
  revert h
  cases root.go here first with
  | error e' =>
    rintro ⟨⟩
    rfl
  | ok spot =>
    cases spot with
    | free =>
      rintro ⟨⟩
      simp [hne]
    | found place =>
      intro h
      dsimp only at h ⊢
      by_cases hdir : root.HasDir place
      · rw [if_pos hdir] at h
        cases h
      · rw [if_neg hdir] at h
        cases h
        simp [hne, hdir]

end Node

namespace Disk

variable {disk other : Disk} {p : Path}

theorem makeDir_cases (disk : Disk) (p : Path) :
    (∃ e, disk.locate false (withoutSlashes p) = .error e ∧ disk.makeDir p = (disk, .error e)) ∨
    (∃ place, disk.locate false (withoutSlashes p) = .ok (.found place) ∧
      disk.makeDir p = (disk, .error .alreadyExists)) ∨
    ∃ place name, disk.locate false (withoutSlashes p) = .ok (.free place name) ∧
      disk.makeDir p =
        ({ disk with root := disk.root.put (place ++ [name]) (.dir []) }, .ok ()) := by
  unfold makeDir
  cases disk.locate false (withoutSlashes p) with
  | error e => exact .inl ⟨e, rfl, rfl⟩
  | ok spot =>
    cases spot with
    | found place => exact .inr (.inl ⟨place, rfl, rfl⟩)
    | free place name => exact .inr (.inr ⟨place, name, rfl, rfl⟩)

theorem makeDir_error {e : OsError} (h : (disk.makeDir p).2 = .error e) :
    disk.makeDir p = (disk, .error e) := by
  rcases disk.makeDir_cases p with ⟨e', -, hm⟩ | ⟨place, -, hm⟩ | ⟨place, name, -, hm⟩
  all_goals rw [hm] at h ⊢; cases h
  all_goals rfl

/-- What comes of making a directory, if it does not matter that it is there already. -/
def settled (disk : Disk) (p : Path) : Except OsError Unit → Except OsError Unit
  | .ok () => .ok ()
  | .error e => if disk.isDir p then .ok () else .error e

end Disk

namespace Work

variable {disk : Disk} {p : Path} {above : List Path}

theorem run_settle (disk : Disk) (p : Path) (made : Except OsError Unit) :
    (makeDirs.settle p made).run disk = (disk, disk.settled p made) := by
  unfold makeDirs.settle Disk.settled
  cases made with
  | ok u => rfl
  | error e =>
    rw [run_bind, run_isDir]
    cases disk.isDir p <;> rfl

theorem makeDirs_found (h : (disk.makeDir p).2 ≠ .error .notFound) :
    (makeDirs (p :: above)).run disk =
      ((disk.makeDir p).1, (disk.makeDir p).1.settled p (disk.makeDir p).2) := by
  unfold makeDirs
  rw [run_bind, run_makeDir]
  split
  next hmade => rw [hmade]; rfl
  next hmade => exact absurd hmade h
  next hmade => rw [hmade]; exact run_settle ..

section Missing

variable {made : Disk} (h : (disk.makeDir p).2 = .error .notFound)
include h

/-- What is not there cannot be made if what is above it cannot. -/
theorem makeDirs_of_error {e : OsError} (habove : (makeDirs above).run disk = (made, .error e)) :
    (makeDirs (p :: above)).run disk = (made, .error e) := by
  have hdisk : disk.makeDir p = (disk, .error .notFound) := Disk.makeDir_error h
  conv => lhs; unfold makeDirs
  rw [run_bind, run_makeDir, hdisk]
  exact run_rest habove

/-- With what is above it made, one more attempt is made. -/
theorem makeDirs_of_made (habove : (makeDirs above).run disk = (made, .ok ())) :
    (makeDirs (p :: above)).run disk =
      ((made.makeDir p).1, (made.makeDir p).1.settled p (made.makeDir p).2) := by
  have hdisk : disk.makeDir p = (disk, .error .notFound) := Disk.makeDir_error h
  conv => lhs; unfold makeDirs
  rw [run_bind, run_makeDir, hdisk]
  refine (run_rest habove).trans ?_
  rw [run_bind, run_makeDir, run_settle]

end Missing

end Work

/-! ### Below a directory -/

theorem Path.filter_append_dot (steps : List Name) (q : Path) :
    (steps ++ if q.endsInSlash then [Path.dot] else []).filter (· ≠ Path.dot) =
      steps.filter (· ≠ Path.dot) := by
  rw [List.filter_append]
  split <;> simp

namespace Disk.AllHaveDir

variable {ok : Disk → Prop} {place : Place} (hok : Disk.AllHaveDir ok place) {disk other : Disk}
  {p : Path} {steps : List Name}
include hok

/-- A path below the place names a directory if there is one where its steps lead to. -/
theorem isDir_under (h : p.Under ok place steps) (hdisk : ok disk) :
    disk.isDir p ↔ 0 ∉ p.bytes ∧ disk.root.HasDir (place ++ steps.filter (· ≠ Path.dot)) := by
  have hplain := hok.plain hdisk
  rw [Disk.isDir_iff, hok.locate_under h hdisk, ← Path.filter_append_dot steps p]
  constructor
  · rintro ⟨q, hloc, hdir⟩
    split at hloc
    · cases hloc
    next hzero =>
      have hq : q = _ := Node.go_place hplain.tree h.down_append hloc
      exact ⟨hzero, hq ▸ hdir⟩
  · rintro ⟨hzero, hdir⟩
    rw [if_neg hzero]
    exact ⟨_, Node.go_of_hasDir hplain.tree h.down_append hdir, hdir⟩

/-- A directory that was made is there. -/
theorem isDir_makeDir (hkeeps : ∀ disk c, ok disk → ok (disk.answer c).1)
    (h : p.Under ok place steps) (hdisk : ok disk) (hmade : (disk.makeDir p).2 = .ok ()) :
    (disk.makeDir p).1.isDir p := by
  have hplain := hok.plain hdisk
  have hlater := hkeeps disk (.makeDir p) hdisk
  rcases disk.makeDir_cases p with ⟨e, -, hm⟩ | ⟨q, -, hm⟩ | ⟨q, name, hloc, hm⟩
  · rw [hm] at hmade
    cases hmade
  · rw [hm] at hmade
    cases hmade
  · obtain ⟨hdir, -⟩ := Node.locate_names hplain.cwd hloc
    rw [hok.locate_under h.withoutSlashes hdisk] at hloc
    split at hloc
    · cases hloc
    next hzero =>
      have hq : q ++ [name] = _ := Node.go_place hplain.tree h.withoutSlashes.down_append hloc
      rw [Path.filter_append_dot] at hq
      refine (hok.isDir_under h hlater).mpr ⟨mt p.zero_mem_withoutSlashes.mpr hzero, [], ?_⟩
      simp only [Disk.answer, hm, ← hq]
      exact Node.at?_put_self hdir name _ []

/-- What is in the way of a directory is in the way of those below it. -/
theorem makeDir_of_stop (h : p.Under ok place steps) {above : List Name} {name : Name}
    (hsteps : steps.filter (· ≠ Path.dot) = above ++ [name]) (hdisk : ok disk) (hzero : 0 ∉ p.bytes)
    {e : OsError} (hstop : disk.root.stop? place above = some e) :
    disk.makeDir p = (disk, .error e) ∧ disk.isDir p = false := by
  have hplain := hok.plain hdisk
  constructor
  · refine Disk.makeDir_error ?_
    unfold Disk.makeDir
    rw [hok.locate_under h.withoutSlashes hdisk, if_neg (mt p.zero_mem_withoutSlashes.mp hzero),
      Node.go_of_stop? hplain.tree (hok.hasDir hdisk) h.down hsteps hstop]
  · refine Bool.eq_false_iff.mpr fun hdir => ?_
    have hdir := ((hok.isDir_under h hdisk).mp hdir).2
    rw [hsteps, ← List.append_assoc] at hdir
    have hmem {step : Name} (hstep : step ∈ above) : step ∈ steps ∧ decide (step ≠ Path.dot) :=
      List.mem_filter.mp (hsteps ▸ List.mem_append_left _ hstep)
    have habove : above.filter (· ≠ Path.dot) = above :=
      List.filter_eq_self.mpr fun step hstep => (hmem hstep).2
    have hdown : Path.dots ∉ above := fun hdots => h.down (hmem hdots).1
    have hnone := (Node.stop?_eq_none hplain.tree hdown).mpr (habove.symm ▸ hdir.left)
    rw [hnone] at hstop
    cases hstop

/-- Where steps come to no directory, none can be made either, unless it is free. -/
theorem makeDir_of_stop_self (h : p.Under ok place steps) (hdisk : ok disk) (hzero : 0 ∉ p.bytes)
    {e : OsError} (hstop : disk.root.stop? place steps = some e) :
    (disk.makeDir p).2 = .error e ∨ e = .notFound ∨
      ∃ n, disk.root.at? (place ++ steps.filter (· ≠ Path.dot)) = some n ∧ ∀ es, n ≠ .dir es := by
  have hplain := hok.plain hdisk
  have hsame : disk.root.stop? place (steps ++
      if (Disk.withoutSlashes p).endsInSlash then [Path.dot] else []) = some e := by
    rw [← Node.stop?_filter hplain.tree h.withoutSlashes.down_append, Path.filter_append_dot,
      Node.stop?_filter hplain.tree h.down, hstop]
  have hlocate (spot : Except OsError Spot) (hloc : disk.locate false (Disk.withoutSlashes p) = spot) :
      disk.root.go place (steps ++ if (Disk.withoutSlashes p).endsInSlash then [Path.dot] else []) =
        spot := by
    rw [← hloc, hok.locate_under h.withoutSlashes hdisk,
      if_neg (mt p.zero_mem_withoutSlashes.mp hzero)]
  rcases disk.makeDir_cases p with ⟨e', hloc, hm⟩ | ⟨q, hloc, -⟩ | ⟨q, name, hloc, -⟩
  · rw [Node.stop?, hlocate _ hloc] at hsame
    exact .inl (by rw [hm, Option.some.inj hsame])
  · obtain ⟨n, hn, -⟩ := Node.locate_names hplain.cwd hloc
    have hq := Node.go_place hplain.tree h.withoutSlashes.down_append (hlocate _ hloc)
    rw [Path.filter_append_dot] at hq
    refine .inr (.inr ⟨n, hq ▸ hn, ?_⟩)
    rintro es rfl
    rw [Node.stop?, hlocate _ hloc] at hsame
    simp [show disk.root.HasDir q from ⟨es, hn⟩] at hsame
  · rw [Node.stop?, hlocate _ hloc] at hsame
    exact .inr (.inl (Option.some.inj hsame).symm)

/-- To make a directory that is there is an error. -/
theorem makeDir_of_isDir (h : p.Under ok place steps) (hdisk : ok disk) (hdir : disk.isDir p) :
    disk.makeDir p = (disk, .error .alreadyExists) := by
  obtain ⟨hzero, hdir⟩ := (hok.isDir_under h hdisk).mp hdir
  rw [← Path.filter_append_dot steps (Disk.withoutSlashes p)] at hdir
  unfold Disk.makeDir
  rw [hok.locate_under h.withoutSlashes hdisk, if_neg (mt p.zero_mem_withoutSlashes.mp hzero),
    Node.go_of_hasDir (hok.plain hdisk).tree h.withoutSlashes.down_append hdir]

theorem makeDirs_of_isDir (h : p.Under ok place steps) (hdisk : ok disk) (hdir : disk.isDir p)
    (above : List Path) : (Work.makeDirs (p :: above)).run disk = (disk, .ok ()) := by
  have hmade := hok.makeDir_of_isDir h hdisk hdir
  rw [Work.makeDirs_found (by simp [hmade]), hmade]
  simp [Disk.settled, hdir]

/-- What a look at a path below the place comes to is the same where the same is there. -/
theorem isDir_congr (h : p.Under ok place steps) (hdisk : ok disk) (hother : ok other)
    (hsame : ∀ r, other.root.at? (place ++ r) = disk.root.at? (place ++ r)) :
    other.isDir p = disk.isDir p := by
  rw [Disk.isDir, Disk.isDir, hok.node_congr (.inr ⟨steps, h⟩) hdisk hother hsame]

/-- After one attempt to make a directory, another fails, and comes to the same if it does
not matter that the directory is there. -/
theorem makeDir_again (hkeeps : ∀ disk c, ok disk → ok (disk.answer c).1)
    (h : p.Under ok place steps) (hdisk : ok disk) (hother : ok other)
    (hsame : ∀ r, other.root.at? (place ++ r) = (disk.makeDir p).1.root.at? (place ++ r)) :
    ∃ e, other.makeDir p = (other, .error e) ∧
      other.settled p (.error e) = (disk.makeDir p).1.settled p (disk.makeDir p).2 ∧
      (e = .notFound → disk.makeDir p = (disk, .error .notFound)) := by
  have hisDir : other.isDir p = (disk.makeDir p).1.isDir p :=
    hok.isDir_congr h (hkeeps disk (.makeDir p) hdisk) hother hsame
  cases hmade : (disk.makeDir p).2 with
  | ok u =>
    have hdir := hok.isDir_makeDir hkeeps h hdisk hmade
    rw [← hisDir] at hdir
    exact ⟨_, hok.makeDir_of_isDir h hother hdir, by simp [Disk.settled, hdir], nofun⟩
  | error e =>
    have hm := Disk.makeDir_error hmade
    have hlocate := hok.locate_congr (.inr ⟨_, h.withoutSlashes⟩) hdisk hother
      (by simpa [hm] using hsame) false
    simp only [hm] at hisDir ⊢
    refine ⟨e, ?_, by simp [Disk.settled, hisDir], fun he => by rw [he]⟩
    refine Disk.makeDir_error ?_
    unfold Disk.makeDir at hmade ⊢
    rw [hlocate]
    revert hmade
    cases disk.locate false (Disk.withoutSlashes p) with
    | error e' => exact id
    | ok spot => cases spot <;> exact id

end Disk.AllHaveDir

namespace Work

variable {ok : Disk → Prop} {place : Place} (hok : Disk.AllHaveDir ok place) {p sub : Path}
  {disk other : Disk}
include hok

/-- If the directory above one is not there and cannot be made, the one below it cannot be
made either, for the same reason. -/
theorem makeDirs_again_stopped {names : List Name} {name : Name} {q d : Path} {steps : List Name}
    (hq : q.Under ok place steps) (hsteps : steps.filter (· ≠ Path.dot) = names ++ [name])
    (hd : d.Under ok place names) (hnames : Path.dot ∉ names) (hzeroq : 0 ∉ q.bytes)
    (hzerod : 0 ∉ d.bytes) {above : List Path} (hother : ok other) {e : OsError}
    (hothers : ∀ n, (∀ es, n ≠ .dir es) → other.root.at? (place ++ names) ≠ some n)
    (hagain : (makeDirs (d :: above)).run other = (other, .error e)) :
    (makeDirs (q :: d :: above)).run other = (other, .error e) := by
  have hplain := hok.plain hother
  have hfilter : names.filter (· ≠ Path.dot) = names :=
    List.filter_eq_self.mpr fun step hstep => by simpa using ne_of_mem_of_not_mem hstep hnames
  have hdir : other.isDir d = false := by
    refine Bool.eq_false_iff.mpr fun hdir => ?_
    rw [hok.makeDirs_of_isDir hd hother hdir] at hagain
    cases hagain
  obtain ⟨e', hstop⟩ : ∃ e', other.root.stop? place names = some e' := by
    refine Option.ne_none_iff_exists'.mp fun hnone => ?_
    rw [(hok.isDir_under hd hother).mpr
      ⟨hzerod, (Node.stop?_eq_none hplain.tree hd.down).mp hnone⟩] at hdir
    cases hdir
  obtain ⟨hm, hnot⟩ := hok.makeDir_of_stop hq hsteps hother hzeroq hstop
  by_cases he' : e' = .notFound
  · exact makeDirs_of_error (by rw [hm, he']) hagain
  · rw [makeDirs_found (by simpa [hm] using he'), hm, Disk.settled, hnot]
    rcases hok.makeDir_of_stop_self hd hother hzerod hstop with hm' | hfree | ⟨n, hn, hkind⟩
    · rw [makeDirs_found (by simpa [hm'] using he'), Disk.makeDir_error hm', Disk.settled, hdir]
        at hagain
      exact hagain
    · exact absurd hfree he'
    · exact absurd (hfilter ▸ hn) (hothers n hkind)

variable (hkeeps : ∀ disk c, ok disk → ok (disk.answer c).1)
include hkeeps

/-- If a path's directory is made, it is there. -/
theorem makeDirs_isDir {q : Path} {steps : List Name} (hq : q.Under ok place steps)
    {above : List Path} (hdisk : ok disk)
    (hmade : ((makeDirs (q :: above)).run disk).2 = .ok ()) :
    ((makeDirs (q :: above)).run disk).1.isDir q := by
  have hsettled {disk : Disk} (hdisk : ok disk)
      (h : (disk.makeDir q).1.settled q (disk.makeDir q).2 = .ok ()) :
      (disk.makeDir q).1.isDir q := by
    cases hmade : (disk.makeDir q).2 with
    | ok u => exact hok.isDir_makeDir hkeeps hq hdisk hmade
    | error e => simpa [hmade, Disk.settled] using h
  by_cases hmissing : (disk.makeDir q).2 = .error .notFound
  · have hlater := (history_keeps hkeeps (makeDirs above) hdisk).1
    rcases hrun : (makeDirs above).run disk with ⟨made, e | u⟩
    · rw [makeDirs_of_error hmissing hrun] at hmade
      cases hmade
    · rw [hrun] at hlater
      rw [makeDirs_of_made hmissing hrun] at hmade ⊢
      exact hsettled hlater hmade
  · rw [makeDirs_found hmissing] at hmade ⊢
    exact hsettled hdisk hmade

/-- What was not found missing is not looked for further up the second time. -/
theorem makeDirs_again_found {q : Path} {steps : List Name} (hq : q.Under ok place steps)
    {above : List Path} (hdisk : ok disk) (hother : ok other)
    (hmissing : (disk.makeDir q).2 ≠ .error .notFound)
    (hsame : ∀ r, other.root.at? (place ++ r) =
      ((makeDirs (q :: above)).run disk).1.root.at? (place ++ r)) :
    (makeDirs (q :: above)).run other = (other, ((makeDirs (q :: above)).run disk).2) := by
  rw [makeDirs_found hmissing] at hsame ⊢
  obtain ⟨e, hm, hsettled, he⟩ := hok.makeDir_again hkeeps hq hdisk hother hsame
  have hother : (other.makeDir q).2 ≠ .error .notFound := by
    rw [hm]
    intro h
    cases h
    exact hmissing (by rw [he rfl])
  rw [makeDirs_found hother, hm, hsettled]

variable (hne : p.bytes ≠ []) (hp : ∀ disk, ok disk → disk.LeadsTo p place) (hsub : sub.GoesDown)
include hne hp hsub

/-- To make directories again comes to the same and changes nothing. -/
theorem makeDirs_again (hzero : ∀ k, 0 ∉ (p.descent sub k).bytes) (k : Nat)
    (hk : k ≤ sub.inside.length) (above : List Path) {q : Path} {steps : List Name}
    (hq : q.Under ok place steps) (hsteps : steps.filter (· ≠ Path.dot) = sub.inside.take k)
    (hdisk : ok disk) (hother : ok other)
    (hsame : ∀ r, other.root.at? (place ++ r) =
      ((makeDirs (q :: (p.descents sub k ++ above))).run disk).1.root.at? (place ++ r)) :
    (makeDirs (q :: (p.descents sub k ++ above))).run other =
      (other, ((makeDirs (q :: (p.descents sub k ++ above))).run disk).2) := by
  induction k generalizing q steps with
  | zero =>
    exact makeDirs_again_found hok hkeeps hq hdisk hother (hok.makeDir_ne hq hsteps hdisk) hsame
  | succ j ih =>
    by_cases hmissing : (disk.makeDir q).2 = .error .notFound
    case neg => exact makeDirs_again_found hok hkeeps hq hdisk hother hmissing hsame
    have hd := Path.Under.descent hok hne hp hsub j
    have hdots : Path.dot ∉ sub.inside.take j := fun hmem => by
      simpa using (List.mem_filter.mp (List.mem_of_mem_take hmem)).2
    have hnames : (sub.inside.take j).filter (· ≠ Path.dot) = sub.inside.take j :=
      List.filter_eq_self.mpr fun name hname => by simpa using ne_of_mem_of_not_mem hname hdots
    have ih := ih (by omega) hd hnames
    rw [Path.descents, List.cons_append] at hsame ⊢
    have hmade := (history_keeps hkeeps (makeDirs (p.descent sub j :: (p.descents sub j ++ above)))
      hdisk).1
    have hothers {n : Node} (hn : ∀ es, n ≠ .dir es) :=
      (makeDirs_onlyDirs (p.descent sub j :: (p.descents sub j ++ above))).others
        (hok.plain hdisk).cwd hn
    rcases hrun : (makeDirs (p.descent sub j :: (p.descents sub j ++ above))).run disk with
      ⟨made, e | u⟩
    all_goals rw [hrun] at ih hmade hothers
    · rw [makeDirs_of_error hmissing hrun] at hsame ⊢
      have hzeroq : 0 ∉ q.bytes := by
        intro hmem
        rw [Disk.makeDir, (hok.plain hdisk).locate_eq, if_pos (q.zero_mem_withoutSlashes.mpr hmem)]
          at hmissing
        cases hmissing
      have hlast : steps.filter (· ≠ Path.dot) = sub.inside.take j ++ [sub.inside[j]] := by
        rw [hsteps, List.take_append_getElem]
      refine makeDirs_again_stopped hok hq hlast hd hdots hzeroq (hzero j) hother ?_ (ih hsame)
      -- Something else in the way would have been there the first time.
      intro n hn hat
      rw [hsame, hothers hn] at hat
      have hstop := Node.stop?_of_at? (hok.plain hdisk).tree (hok.hasDir hdisk)
        (fun step hstep => ⟨ne_of_mem_of_not_mem hstep hdots, ne_of_mem_of_not_mem hstep hd.down⟩)
        hat hn
      rw [(hok.makeDir_of_stop hq hlast hdisk hzeroq hstop).1] at hmissing
      cases hmissing
    · rw [makeDirs_of_made hmissing hrun] at hsame ⊢
      obtain ⟨e, hm, hsettled, he⟩ := hok.makeDir_again hkeeps hq hmade hother hsame
      rw [← hsettled]
      by_cases hnone : e = .notFound
      · rw [he hnone] at hsame
        rw [makeDirs_of_made (by rw [hm, hnone]) (ih hsame)]
        simp only [hm]
      · rw [makeDirs_found (by simpa [hm] using hnone), hm]

end Work

/-- The paths down along a path have no zero byte if the path has none. -/
theorem Path.zero_not_mem_descent {p sub : Path} (hne : p.bytes ≠ []) (hp : 0 ∉ p.bytes)
    (hsub : 0 ∉ sub.bytes) (k : Nat) : 0 ∉ (p.descent sub k).bytes := by
  intro hzero
  obtain ⟨name, hname, hmem⟩ := exists_mem_names hzero (by decide)
  rw [descent, (ofComponents_append hne (inside_isStep sub k)).1, List.flatMap_append,
    inside_steps, components_eq, List.flatMap_append, flatMap_steps fun name h => (mem_names h).1]
    at hname
  rcases List.mem_append.mp hname with hname | hname
  · rcases List.mem_append.mp hname with hname | hname
    · have hdot : name = dot := by
        unfold lead at hname
        split at hname
        · cases hname
        · split at hname
          · exact List.mem_singleton.mp hname
          · cases hname
      rw [hdot] at hmem
      exact absurd hmem (by decide)
    · exact hp ((mem_names (List.mem_filter.mp hname).1).2.2 0 hmem)
  · exact hsub ((mem_names (List.mem_filter.mp (List.mem_of_mem_take hname)).1).2.2 0 hmem)

namespace Work

variable {p sub : Path} {place : Place} {disk other : Disk} (hplain : disk.Plain)
  (hp : disk.LeadsTo p place) (hne : p.bytes ≠ []) (hsub : sub.GoesDown)

include hplain hp hne hsub

/-- If a directory below another is made, its path leads to it. -/
theorem makeAllDirs_leadsTo (hmade : ((makeAllDirs (p.join sub)).run disk).2 = .ok ()) :
    ((makeAllDirs (p.join sub)).run disk).1.LeadsTo (p.join sub) (place ++ sub.inside) := by
  have hplain' := hplain.run (makeAllDirs (p.join sub))
  have hp' := (history_keeps Disk.keeps_leadsTo (makeAllDirs (p.join sub)) ⟨hplain, hp⟩).1.2
  obtain ⟨above, habove⟩ := Path.ancestors_join hne hsub
  unfold makeAllDirs at hmade hplain' hp' ⊢
  rw [habove] at hmade hplain' hp' ⊢
  have hdir := makeDirs_isDir (Disk.allHaveDir_leadsTo p place) Disk.keeps_leadsTo
    (Path.Under.join (Disk.allHaveDir_leadsTo p place) hne (fun _ h => h.2) hsub) ⟨hplain, hp⟩ hmade
  obtain ⟨-, q, hq⟩ := hplain'.leadsTo_of_isDir hdir
  exact hp'.place_join hplain' hsub hq ▸ hq

/-- There is nothing to do if the directory is there. -/
theorem makeAllDirs_of_isDir (hdir : disk.isDir (p.join sub)) :
    (makeAllDirs (p.join sub)).run disk = (disk, .ok ()) := by
  have hok := Disk.allHaveDir_leadsTo p place
  obtain ⟨above, habove⟩ := Path.ancestors_join hne hsub
  unfold makeAllDirs
  rw [habove]
  exact hok.makeDirs_of_isDir (Path.Under.join hok hne (fun _ h => h.2) hsub) ⟨hplain, hp⟩ hdir _

/-- On what is left after an attempt to make a directory below another, the next attempt
comes to the same and changes nothing. -/
theorem makeAllDirs_again (hplain' : other.Plain) (hp' : other.LeadsTo p place)
    (hsame : ∀ r, other.root.at? (place ++ r) =
      ((makeAllDirs (p.join sub)).run disk).1.root.at? (place ++ r)) :
    (makeAllDirs (p.join sub)).run other =
      (other, ((makeAllDirs (p.join sub)).run disk).2) := by
  have hok := Disk.allHaveDir_leadsTo p place
  have hunder := Path.Under.join hok hne (fun _ h => h.2) hsub
  obtain ⟨above, habove⟩ := Path.ancestors_join hne hsub
  unfold makeAllDirs at hsame ⊢
  rw [habove] at hsame ⊢
  by_cases hzero : 0 ∈ (p.join sub).bytes
  · refine makeDirs_again_found hok Disk.keeps_leadsTo hunder ⟨hplain, hp⟩ ⟨hplain', hp'⟩ ?_ hsame
    rw [Disk.makeDir, hplain.locate_eq, if_pos ((p.join sub).zero_mem_withoutSlashes.mpr hzero)]
    simp
  · have hsub₀ : 0 ∉ sub.bytes := fun hmem =>
      hzero ((Path.mem_bytes_join hsub.isAbsolute (by decide)).mpr (.inr hmem))
    exact makeDirs_again hok Disk.keeps_leadsTo hne (fun _ h => h.2) hsub
      (Path.zero_not_mem_descent hne hp.no_zero hsub₀) _ le_rfl above hunder
      List.take_length.symm ⟨hplain, hp⟩ ⟨hplain', hp'⟩ hsame

end Work

end NodeLogs
