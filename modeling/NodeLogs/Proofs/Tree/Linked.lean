import NodeLogs.Proofs.Discovery.Files
import NodeLogs.Proofs.Tree.Proper

/-! Paths through links. Where a link is met, its target is gone along before what is left of
the path, so that a path that leads to a directory can be made longer: what comes behind it is
gone along from there, with fewer links to follow. In this way the path of what lies in a
directory leads to it, however the directory's own path leads there. -/

namespace NodeLogs

theorem EntryName.isNameStep {name : Name} (h : EntryName name) : Node.IsNameStep name :=
  ⟨h.ne_dot, h.ne_dots, h.length_le⟩

namespace Node

variable {root : Node} {follow : Place → List Name → Except OsError Spot} {place : Place}

/-- If links go on in some way where they lead to a directory, steps do as well. -/
theorem StepsTo.append {Q : (List Name → Except OsError Spot) → Prop} (hdir : root.HasDir place)
    (hhere : Q (root.walkSteps true follow place))
    (hfollow : ∀ here first, follow here first = .ok (.found place) →
      ∃ go, Q go ∧ ∀ rest, follow here (first ++ rest) = go rest)
    {here : Place} {first : List Name} {s : Spot} (h : root.StepsTo true follow here first s)
    (hs : s = .found place) :
    ∃ go, Q go ∧ ∀ rest, root.walkSteps true follow here (first ++ rest) = go rest := by
  induction h with
  | here =>
    cases hs
    exact ⟨_, hhere, fun _ => rfl⟩
  | dot _ ih => simpa using ih hs
  | dots _ ih => simpa using ih hs
  | free => cases hs
  | dir hstep hes _ ih => simpa [walkSteps_of_dir hstep hes] using ih hs
  | link hstep hlink _ hnext =>
    subst hs
    simpa [walkSteps_of_link hstep hlink] using hfollow _ _ hnext
  | last _ hn hno =>
    cases hs
    obtain ⟨es, hes⟩ := hdir
    exact absurd (Option.some.inj (hn.symm.trans hes)) (hno es)

/-- What leads to a directory goes on from there, with the links that are left. -/
theorem walkLinks_append (hdir : root.HasDir place) {links : Nat} {here : Place}
    {first : List Name} (h : root.walkLinks true links here first = .ok (.found place)) :
    ∃ left, ∀ rest, root.walkLinks true links here (first ++ rest) =
      root.walkLinks true left place rest := by
  have hgoes : ∃ go, (∃ left, go = root.walkLinks true left place) ∧
      ∀ rest, root.walkLinks true links here (first ++ rest) = go rest := by
    induction links generalizing here first with
    | zero => exact (StepsTo.of_walkSteps h).append hdir ⟨0, rfl⟩ (by simp) rfl
    | succ links ih =>
      exact (StepsTo.of_walkSteps h).append hdir ⟨links + 1, rfl⟩ (fun _ _ h => ih h) rfl
  obtain ⟨go, ⟨left, rfl⟩, hgo⟩ := hgoes
  exact ⟨left, hgo⟩

/-- A step to where one is can be left out if more steps come behind it. -/
theorem walkSteps_dot {rest : List Name} (hrest : rest ≠ [])
    (hfollow : ∀ here first, follow here (first ++ Path.dot :: rest) = follow here (first ++ rest))
    (here : Place) (first : List Name) :
    root.walkSteps true follow here (first ++ Path.dot :: rest) =
      root.walkSteps true follow here (first ++ rest) := by
  induction first generalizing here with
  | nil =>
    exact walkSteps_cons_dot _ _ _ _ _
  | cons step first ih =>
    have hmore : (first ++ rest).isEmpty = false := by simp [hrest]
    have hdot : (first ++ Path.dot :: rest).isEmpty = false := by simp
    simp only [List.cons_append]
    unfold walkSteps
    simp only [ih, hmore, hdot, ← List.append_assoc, hfollow]

theorem walkLinks_dot {rest : List Name} (hrest : rest ≠ []) (links : Nat) (here : Place)
    (first : List Name) :
    root.walkLinks true links here (first ++ Path.dot :: rest) =
      root.walkLinks true links here (first ++ rest) := by
  induction links generalizing here first with
  | zero => exact walkSteps_dot hrest (fun _ _ => rfl) here first
  | succ links ih => exact walkSteps_dot hrest ih here first

end Node

namespace Disk

variable {disk : Disk} {p : Path}

theorem node_eq_ok {n : Node} : disk.node p = .ok n ↔
    ∃ place, disk.locate true p = .ok (.found place) ∧ disk.root.at? place = some n := by
  unfold node
  cases disk.locate true p with
  | error e => simp
  | ok spot =>
    cases spot with
    | free => simp
    | found place => cases hat : disk.root.at? place <;> simp [hat]

/-- The path of an entry is followed from the directory. -/
theorem locate_child_of_node {es : List (Name × Node)} (h : disk.node p = .ok (.dir es))
    {name : Name} (hname : StepName name) :
    ∃ place left, disk.root.at? place = some (.dir es) ∧
      disk.locate true (p.child name) = disk.root.walkLinks true left place [name] := by
  obtain ⟨place, hloc, hat⟩ := node_eq_ok.mp h
  unfold locate Node.locate at hloc
  split at hloc
  · cases hloc
  next hzero =>
    split at hloc
    · cases hloc
    obtain ⟨left, hleft⟩ := Node.walkLinks_append ⟨es, hat⟩ hloc
    have hzero' : 0 ∉ (p.child name).bytes := by
      rw [Path.zero_mem_child hname]
      simpa using hzero
    refine ⟨place, left, hat, ?_⟩
    rw [← hleft, locate, Node.locate, Path.steps_child hname, Path.isAbsolute_child hname,
      Path.steps_eq]
    simp only [List.contains_iff_mem, hzero', List.isEmpty_iff, Path.child_ne_nil hname, if_false]
    cases p.endsInSlash with
    | false => simp
    | true =>
      rw [if_pos rfl, List.append_assoc]
      exact (Node.walkLinks_dot (List.cons_ne_nil _ _) ..).symm

/-- The path of an entry that is no link leads to it. -/
theorem node_child {es : List (Name × Node)} (h : disk.node p = .ok (.dir es)) {name : Name}
    (hname : EntryName name) {n : Node} (hn : (Node.dir es).child? name = some n)
    (hlink : ∀ target, n ≠ .link target) : disk.node (p.child name) = .ok n := by
  obtain ⟨place, left, hes, hloc⟩ := locate_child_of_node h hname.toStepName
  have hat : disk.root.at? (place ++ [name]) = some n := by
    rw [Node.at?_append, hes, Option.bind_some, Node.at?_cons, hn]
    simp
  have hfound : disk.root.walkLinks true left place [name] = .ok (.found (place ++ [name])) := by
    cases left <;>
    · unfold Node.walkLinks
      rw [Node.walkSteps_cons hname.isNameStep, hat]
      cases n with
      | link target => exact absurd rfl (hlink target)
      | dir | file | device => rfl
  simp [node, hloc, hfound, hat]

/-- The path of what lies below a node leads to it, if it is no link. -/
theorem node_below {n : Node} (h : disk.node p = .ok n) (hproper : n.isProper) {place : Place}
    {m : Node} (hm : n.at? place = some m) (hlink : ∀ target, m ≠ .link target) :
    disk.node (p.below place) = .ok m := by
  induction place generalizing p n with
  | nil =>
    cases hm
    exact h
  | cons name place ih =>
    rw [Node.at?_cons] at hm
    obtain ⟨c, hc, hat⟩ := Option.bind_eq_some_iff.mp hm
    cases n with
    | dir es =>
      obtain ⟨hname, hbelow⟩ := (Node.isProper_dir.mp hproper).2 _ (Keyed.mem_of_lookup hc)
      refine ih (node_child h hname hc fun target hc => ?_) hbelow hat
      -- Nothing lies below a link.
      subst hc
      cases place with
      | nil => exact hlink target (Option.some.inj hat).symm
      | cons => cases hat
    | file | link | device => cases hc

end Disk

end NodeLogs
