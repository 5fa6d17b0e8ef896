import Mathlib.Data.List.TakeWhile
import NodeLogs.Proofs.Tree.Local

/-! Making a directory below another. The directories that may be missing on the way are
made from the top down; the other one is there, so that nothing above it is asked for. -/

namespace NodeLogs

namespace Path

/-! ### Slashes at the end -/

theorem names_slashes (k : Nat) : (⟨List.replicate k slash⟩ : Path).names = [] := by
  induction k with
  | zero => rfl
  | succ k ih =>
    have hsplit := splitAll_append slash [] (List.replicate k slash)
    rw [List.nil_append] at hsplit
    simpa [names, pieces, List.replicate_succ, hsplit] using ih

theorem names_append_slashes (bs : Bytes) (k : Nat) :
    (⟨bs ++ List.replicate k slash⟩ : Path).names = (⟨bs⟩ : Path).names := by
  cases k with
  | zero => simp
  | succ k =>
    have hnil := names_slashes k
    unfold names pieces at hnil ⊢
    simp only [List.replicate_succ, splitAll_append, List.filter_append, hnil, List.append_nil]

/-- What a path is without its slashes at the end; but one stays if there is nothing else. -/
theorem withoutSlashes_cases (p : Path) : Disk.withoutSlashes p = p ∨
    ∃ k, p.bytes = List.replicate (k + 1) slash ∧ (Disk.withoutSlashes p).bytes = [slash] ∨
      p.bytes = (Disk.withoutSlashes p).bytes ++ List.replicate k slash ∧
        (Disk.withoutSlashes p).bytes ≠ [] := by
  have hslashes : (p.bytes.reverse.takeWhile (· = slash)).reverse =
      List.replicate (p.bytes.reverse.takeWhile (· = slash)).length slash := by
    refine List.eq_replicate_iff.mpr ⟨by simp, fun b hb => ?_⟩
    simpa using List.mem_takeWhile_imp (List.mem_reverse.mp hb)
  have hbytes : p.bytes = (p.bytes.reverse.dropWhile (· = slash)).reverse ++
      List.replicate (p.bytes.reverse.takeWhile (· = slash)).length slash := by
    rw [← hslashes, ← List.reverse_append, List.takeWhile_append_dropWhile, List.reverse_reverse]
  unfold Disk.withoutSlashes
  generalize (p.bytes.reverse.takeWhile (· = slash)).length = k at hbytes
  cases hdrop : p.bytes.reverse.dropWhile (· = slash) with
  | cons c cs =>
    rw [hdrop] at hbytes
    exact .inr ⟨k, .inr ⟨hbytes, by simp⟩⟩
  | nil =>
    rw [hdrop] at hbytes
    cases k with
    | zero => exact .inl (if_pos (by simpa using hbytes))
    | succ k =>
      have hne : p.bytes.isEmpty = false := by simp [hbytes]
      exact .inr ⟨k, .inl ⟨hbytes, by simp [hne]⟩⟩

/-- Without its slashes at the end a path leads to the same place. -/
theorem Under.withoutSlashes {p : Path} {ok : Disk → Prop} {place : Place} {steps : List Name}
    (h : p.Under ok place steps) : (Disk.withoutSlashes p).Under ok place steps := by
  have hsame : (Disk.withoutSlashes p).bytes ≠ [] ∧ (Disk.withoutSlashes p).names = p.names ∧
      (Disk.withoutSlashes p).isAbsolute = p.isAbsolute := by
    rcases p.withoutSlashes_cases with heq | ⟨k, ⟨hbytes, hslash⟩ | ⟨hbytes, hne⟩⟩
    · rw [heq]
      exact ⟨h.ne_nil, rfl, rfl⟩
    · generalize Disk.withoutSlashes p = q at hslash
      obtain ⟨bs⟩ := p
      obtain ⟨cs⟩ := q
      dsimp only at hbytes hslash
      subst hbytes hslash
      exact ⟨by simp, (names_slashes 1).trans (names_slashes (k + 1)).symm, rfl⟩
    · generalize Disk.withoutSlashes p = q at hbytes hne
      obtain ⟨bs⟩ := p
      obtain ⟨cs⟩ := q
      dsimp only at hbytes hne
      subst hbytes
      refine ⟨hne, (names_append_slashes cs k).symm, ?_⟩
      simp [isAbsolute, List.head?_append, List.head?_eq_some_head hne]
  refine ⟨hsame.1, h.down, fun disk hdisk => ?_⟩
  rw [← h.go_eq disk hdisk, hsame.2.1, Disk.start, Disk.start, hsame.2.2]

theorem zero_mem_withoutSlashes (p : Path) : 0 ∈ (Disk.withoutSlashes p).bytes ↔ 0 ∈ p.bytes := by
  have hslashes (k : Nat) : 0 ∉ List.replicate k slash := fun hmem =>
    absurd (List.eq_of_mem_replicate hmem) (by decide)
  rcases p.withoutSlashes_cases with heq | ⟨k, ⟨hbytes, hslash⟩ | ⟨hbytes, -⟩⟩
  · rw [heq]
  · rw [hbytes, hslash]
    exact iff_of_false (hslashes 1) (hslashes (k + 1))
  · rw [hbytes, List.mem_append, or_iff_left (hslashes k)]

end Path

/-! ### Paths of components -/

namespace Component

/-- The step of a component; the root is none, as it is where steps begin. -/
def steps : Component → List Name
  | root => []
  | current => [Path.dot]
  | parent => [Path.dots]
  | normal name => [name]

/-- The component is a step, and has the bytes of one. -/
def IsStep : Component → Prop
  | root => False
  | current | parent => True
  | normal name => name ≠ [] ∧ Path.slash ∉ name

theorem IsStep.path {c : Component} (h : c.IsStep) :
    (⟨c.bytes⟩ : Path).isAbsolute = false ∧ (⟨c.bytes⟩ : Path).names = c.steps ∧ c.bytes ≠ [] := by
  cases c with
  | root => cases h
  | current | parent => decide
  | normal name =>
    obtain ⟨hne, hslash⟩ := h
    obtain ⟨b, bs, rfl⟩ := List.exists_cons_of_ne_nil hne
    refine ⟨?_, ?_, hne⟩
    · have hb : b ≠ Path.slash := fun h => hslash (h ▸ List.mem_cons_self)
      simpa [Path.isAbsolute, bytes] using hb
    · simp [Path.names, Path.pieces, bytes, splitAll_of_not_mem hslash, steps]

end Component

namespace Path

variable {p sub : Path}

/-- What a path begins with, apart from its names. -/
def lead (p : Path) : List Component :=
  if p.isAbsolute then [.root] else if p.pieces.head? == some dot then [.current] else []

theorem components_eq (p : Path) : p.components = p.lead ++ p.names.filterMap componentOf? := by
  rw [← filterMap_componentOf?]
  rfl

theorem componentOf?_isStep {name : Name} (hne : name ≠ []) (hslash : slash ∉ name)
    {c : Component} (h : componentOf? name = some c) : c.IsStep := by
  unfold componentOf? at h
  split at h
  · cases h
  · split at h <;> cases h
    · trivial
    · exact ⟨hne, hslash⟩

theorem names_isStep (p : Path) : ∀ c ∈ p.names.filterMap componentOf?, c.IsStep := by
  intro c hc
  obtain ⟨name, hmem, hname⟩ := List.mem_filterMap.mp hc
  obtain ⟨hne, hslash, -⟩ := mem_names hmem
  exact componentOf?_isStep hne hslash hname

/-- As steps, the components of names are the names, but for single dots. -/
theorem flatMap_steps {names : List Name} (hne : ∀ name ∈ names, name ≠ []) :
    (names.filterMap componentOf?).flatMap Component.steps = names.filter (· ≠ dot) := by
  induction names with
  | nil => rfl
  | cons name names ih =>
    obtain ⟨hname, hrest⟩ := List.forall_mem_cons.mp hne
    rw [List.filterMap_cons, List.filter_cons]
    by_cases hdot : name = dot
    · simpa [componentOf?, hdot] using ih hrest
    · by_cases hdots : name = dots
      · simpa [componentOf?, hdots, dots, dot, Component.steps] using ih hrest
      · simpa [componentOf?, hname, hdot, hdots, Component.steps] using ih hrest

theorem GoesDown.components_eq (h : sub.GoesDown) :
    sub.components = sub.names.filterMap componentOf? := by
  rw [Path.components_eq]
  suffices hlead : sub.lead = [] by rw [hlead, List.nil_append]
  unfold lead
  rw [h.isAbsolute]
  split
  · contradiction
  · split
    next hdot =>
      obtain ⟨name, hname⟩ := h .current (by simp [components, h.isAbsolute, hdot])
      cases hname
    · rfl

theorem lead_join (hne : p.bytes ≠ []) (hsub : sub.isAbsolute = false) :
    (p.join sub).lead = p.lead := by
  suffices hhead : (p.join sub).pieces.head? = p.pieces.head? by
    rw [lead, lead, isAbsolute_join hsub, hhead]
  unfold pieces
  rw [bytes_join hsub]
  have hfirst (bs rest : Bytes) :
      (splitAll slash bs ++ splitAll slash rest).head? = (splitAll slash bs).head? := by
    obtain ⟨piece, pieces, hsplit⟩ := List.exists_cons_of_ne_nil (splitAll_ne_nil slash bs)
    rw [hsplit]
    rfl
  split
  next h =>
    obtain ⟨bs, hbs⟩ := endsInSlash_iff.mp (h.resolve_left hne)
    rw [hbs, List.append_assoc, List.singleton_append, splitAll_append, hfirst,
      splitAll_append, hfirst]
  next => rw [splitAll_append, hfirst]

theorem components_join (hne : p.bytes ≠ []) (hsub : sub.GoesDown) :
    (p.join sub).components = p.components ++ sub.components := by
  rw [Path.components_eq, Path.components_eq p, hsub.components_eq, lead_join hne hsub.isAbsolute,
    names_join hsub.isAbsolute, List.filterMap_append, List.append_assoc]

theorem components_ne_nil (hne : p.bytes ≠ []) : p.components ≠ [] := by
  obtain ⟨b, bs, hbs⟩ := List.exists_cons_of_ne_nil hne
  rw [Path.components_eq, lead]
  by_cases hb : b = slash
  · simp [isAbsolute, hbs, hb]
  · obtain ⟨piece, pieces, hsplit⟩ := List.exists_cons_of_ne_nil (splitAll_ne_nil slash bs)
    have hpieces : p.pieces = (b :: piece) :: pieces := by
      rw [Path.pieces, hbs, splitAll_cons, if_neg hb, hsplit]
      rfl
    by_cases hdot : b :: piece = dot
    · simp only [hpieces, hdot, List.head?_cons, beq_self_eq_true, if_true]
      split <;> simp
    · have hmem : b :: piece ∈ p.names := List.mem_filter.mpr ⟨by simp [hpieces], rfl⟩
      intro hnil
      have := List.filterMap_eq_nil_iff.mp (List.append_eq_nil_iff.mp hnil).2 _ hmem
      unfold componentOf? at this
      simp [hdot] at this
      split at this <;> cases this

/-- Components that are joined to a path add their steps to it. -/
theorem foldl_join {cs : List Component} (hcs : ∀ c ∈ cs, c.IsStep) (hne : p.bytes ≠ []) :
    (cs.foldl (fun p c => p.join ⟨c.bytes⟩) p).names = p.names ++ cs.flatMap Component.steps ∧
      (cs.foldl (fun p c => p.join ⟨c.bytes⟩) p).isAbsolute = p.isAbsolute ∧
      (cs.foldl (fun p c => p.join ⟨c.bytes⟩) p).bytes ≠ [] := by
  induction cs generalizing p with
  | nil => simpa using hne
  | cons c cs ih =>
    obtain ⟨hc, hrest⟩ := List.forall_mem_cons.mp hcs
    obtain ⟨hrelative, hnames, -⟩ := hc.path
    obtain ⟨h₁, h₂, h₃⟩ := ih hrest (join_ne_nil hne hrelative)
    refine ⟨?_, h₂.trans (isAbsolute_join hrelative), h₃⟩
    rw [List.foldl_cons, h₁, names_join hrelative, hnames, List.flatMap_cons, List.append_assoc]

/-- The path of a path's components, with further ones, has the steps of them all and
begins where the path does. -/
theorem ofComponents_append (hne : p.bytes ≠ []) {cs : List Component} (hcs : ∀ c ∈ cs, c.IsStep) :
    (ofComponents (p.components ++ cs)).names = (p.components ++ cs).flatMap Component.steps ∧
      (ofComponents (p.components ++ cs)).isAbsolute = p.isAbsolute ∧
      (ofComponents (p.components ++ cs)).bytes ≠ [] := by
  have hsteps : ∀ c ∈ p.names.filterMap componentOf? ++ cs, c.IsStep :=
    List.forall_mem_append.mpr ⟨p.names_isStep, hcs⟩
  cases habs : p.isAbsolute with
  | true =>
    have hroot : p.components ++ cs = .root :: (p.names.filterMap componentOf? ++ cs) := by
      simp [Path.components_eq, lead, habs]
    rw [hroot]
    exact foldl_join (p := ⟨[slash]⟩) hsteps (by simp)
  | false =>
    have hall : ∀ c ∈ p.components ++ cs, c.IsStep := by
      rw [Path.components_eq, lead, habs, List.append_assoc]
      refine List.forall_mem_append.mpr ⟨?_, hsteps⟩
      simp only [Bool.false_eq_true, if_false]
      split
      · simp [Component.IsStep]
      · simp
    obtain ⟨c, rest, hsplit⟩ := List.exists_cons_of_ne_nil (components_ne_nil hne)
    rw [hsplit, List.cons_append] at hall ⊢
    obtain ⟨hc, hrest⟩ := List.forall_mem_cons.mp hall
    obtain ⟨hrelative, hnames, hbytes⟩ := hc.path
    have hfirst : (⟨[]⟩ : Path).join ⟨c.bytes⟩ = ⟨c.bytes⟩ := join_nil hrelative rfl
    unfold ofComponents
    rw [List.foldl_cons, hfirst, List.flatMap_cons, ← hnames, ← hrelative]
    exact foldl_join hrest hbytes

/-! ### Ancestors -/

theorem GoesDown.components_inside (h : sub.GoesDown) :
    sub.components = sub.inside.map .normal := by
  have hall (names : List Name) (hne : ∀ name ∈ names, name ≠ []) (hdots : dots ∉ names) :
      names.filterMap componentOf? = (names.filter (· ≠ dot)).map .normal := by
    induction names with
    | nil => rfl
    | cons name names ih =>
      obtain ⟨hname, hrest⟩ := List.forall_mem_cons.mp hne
      obtain ⟨hname', hdots⟩ := not_or.mp (mt List.mem_cons.mpr hdots)
      rw [List.filterMap_cons, List.filter_cons, ih hrest hdots]
      by_cases hdot : name = dot
      · simp [componentOf?, hdot]
      · simp [componentOf?, hname, hdot, Ne.symm hname']
  rw [h.components_eq]
  exact hall _ (fun name hname => (mem_names hname).1) h.dots_not_mem

theorem inside_isStep (sub : Path) (k : Nat) :
    ∀ c ∈ (sub.inside.take k).map Component.normal, c.IsStep := by
  intro c hc
  obtain ⟨name, hname, rfl⟩ := List.mem_map.mp hc
  obtain ⟨hne, hslash, -⟩ := mem_names (List.mem_filter.mp (List.mem_of_mem_take hname)).1
  exact ⟨hne, hslash⟩

theorem inside_steps (sub : Path) (k : Nat) :
    ((sub.inside.take k).map Component.normal).flatMap Component.steps = sub.inside.take k := by
  rw [List.flatMap_map]
  exact List.flatMap_singleton' _

/-- The path of what lies so many names down along another path. -/
def descent (p sub : Path) (k : Nat) : Path :=
  ofComponents (p.components ++ (sub.inside.take k).map .normal)

/-- These paths from above so many names down to the directory itself. -/
def descents (p sub : Path) : Nat → List Path
  | 0 => []
  | k + 1 => p.descent sub k :: p.descents sub k

theorem descents_eq (p sub : Path) (k : Nat) :
    p.descents sub k = ((List.range k).map (p.descent sub)).reverse := by
  induction k with
  | zero => rfl
  | succ k ih => simp [descents, ih, List.range_succ]

/-- Above a path below a directory there are others, down from the directory's own. -/
theorem ancestors_join (hne : p.bytes ≠ []) (hsub : sub.GoesDown) : ∃ above,
    (p.join sub).ancestors = p.join sub :: (p.descents sub sub.inside.length ++ above) := by
  have hempty : (p.join sub).bytes.isEmpty = false := by
    simpa using join_ne_nil hne hsub.isAbsolute
  obtain ⟨m, hm⟩ : ∃ m, p.components.length = m + 1 :=
    ⟨_, (Nat.sub_add_cancel (List.length_pos_iff.mpr (components_ne_nil hne))).symm⟩
  refine ⟨((List.range m).map fun k => ofComponents ((p.join sub).components.take (k + 1))).reverse, ?_⟩
  have htake (k : Nat) : (p.components ++ sub.inside.map Component.normal).take (m + k + 1) =
      p.components ++ (sub.inside.take k).map .normal := by
    rw [show m + k + 1 = p.components.length + k by omega, List.take_length_add_append,
      List.map_take]
  unfold ancestors
  rw [hempty, components_join hne hsub, hsub.components_inside, List.length_append, List.length_map,
    hm, show m + 1 + sub.inside.length - 1 = m + sub.inside.length by omega, List.range_add,
    descents_eq]
  simp [Function.comp_def, htake, descent]

end Path

/-! ### Paths below a directory -/

namespace Node

/-- Single dots can be left out on the way to a directory. -/
theorem go_filter_dot {root : Node} {here place : Place} (hroot : root.isPlain) {steps : List Name}
    (h : root.go here steps = .ok (.found place)) (hdir : root.HasDir place) :
    root.go here (steps.filter (· ≠ Path.dot)) = .ok (.found place) := by
  induction steps generalizing here with
  | nil => exact h
  | cons step rest ih =>
    by_cases hdot : step = Path.dot
    · rw [hdot, go_dot] at h
      simpa [hdot] using ih h
    rw [List.filter_cons_of_pos (by simpa using hdot)]
    by_cases hdots : step = Path.dots
    · rw [hdots, go_dots] at h ⊢
      exact ih h
    rw [go_cons hroot hdot hdots] at h ⊢
    split at h
    · cases h
    next hlong =>
      rw [if_neg hlong]
      cases hn : root.at? (here ++ [step]) with
      | none =>
        rw [hn] at h
        dsimp only at h
        split at h <;> cases h
      | some n =>
        rw [hn] at h
        cases n with
        | dir es => exact ih h
        | file | link | device =>
          dsimp only at h
          split at h <;> cases h
          obtain ⟨es, hes⟩ := hdir
          rw [hn] at hes
          cases hes

end Node

namespace Path

variable {p sub : Path} {ok : Disk → Prop} {place : Place} (hok : Disk.AllHaveDir ok place)
  (hne : p.bytes ≠ []) (hp : ∀ disk, ok disk → disk.LeadsTo p place)

include hne hp in
theorem Under.ofLeadsTo : p.Under ok place [] :=
  ⟨hne, List.not_mem_nil, fun disk hdisk => (hp disk hdisk).go_eq⟩

include hok

theorem IsUnder.child (h : p.IsUnder ok place) {name : Name} (hname : StepName name) :
    (p.child name).IsUnder ok place := by
  rcases h with hzero | ⟨steps, h⟩
  · exact .inl ((zero_mem_child hname p).mpr hzero)
  · refine .inr ⟨steps ++ [name], child_ne_nil hname p, ?_, fun disk hdisk => ?_⟩
    · simpa [h.down] using hname.ne_dots.symm
    · have hplain := hok.plain hdisk
      rw [names_child hname, Disk.start, isAbsolute_child hname, ← Disk.start,
        Node.go_append hplain.tree (hplain.hasDir_start p), h.go_eq disk hdisk,
        Node.go_append hplain.tree (hok.hasDir hdisk)]

include hne hp

theorem Under.join (hsub : sub.GoesDown) : (p.join sub).Under ok place sub.names :=
  ⟨join_ne_nil hne hsub.isAbsolute, hsub.dots_not_mem, fun disk hdisk =>
    (hp disk hdisk).go_join (hok.plain hdisk) hsub⟩

/-- Spelled by its components, a path leads where it did. -/
theorem Under.ofComponents {cs : List Component} (hsteps : ∀ c ∈ cs, c.IsStep)
    (hdots : Path.dots ∉ cs.flatMap Component.steps) :
    (ofComponents (p.components ++ cs)).Under ok place (cs.flatMap Component.steps) := by
  obtain ⟨hnames, habs, hbytes⟩ := ofComponents_append hne hsteps
  refine ⟨hbytes, hdots, fun disk hdisk => ?_⟩
  have hplain := hok.plain hdisk
  have hleads := hp disk hdisk
  have hown : disk.root.go (disk.start p) (p.components.flatMap Component.steps) =
      .ok (.found place) := by
    have hdotless := Node.go_filter_dot hplain.tree hleads.go_eq hleads.hasDir
    rw [components_eq, List.flatMap_append, flatMap_steps fun name h => (mem_names h).1]
    unfold lead
    split
    · exact hdotless
    · split
      · simpa [Component.steps] using hdotless
      · exact hdotless
  rw [hnames, Disk.start, habs, ← Disk.start, List.flatMap_append,
    Node.go_append hplain.tree (hplain.hasDir_start p), hown]
  simp only [hleads.hasDir, if_true]

theorem Under.descent (hsub : sub.GoesDown) (k : Nat) :
    (p.descent sub k).Under ok place (sub.inside.take k) := by
  rw [← inside_steps]
  refine Under.ofComponents hok hne hp (inside_isStep sub k) fun hmem => ?_
  rw [inside_steps] at hmem
  exact hsub.dots_not_mem (List.mem_filter.mp (List.mem_of_mem_take hmem)).1

end Path

namespace Disk.AllHaveDir

variable {ok : Disk → Prop} {place : Place} (hok : Disk.AllHaveDir ok place)
include hok

/-- A directory that is there is not found missing. -/
theorem makeDir_ne {p : Path} {steps : List Name} (h : p.Under ok place steps)
    (hsteps : steps.filter (· ≠ Path.dot) = []) {disk : Disk} (hdisk : ok disk) :
    (disk.makeDir p).2 ≠ .error .notFound := by
  have hnil : (steps ++ if (Disk.withoutSlashes p).endsInSlash then [Path.dot] else []).filter
      (· ≠ Path.dot) = [] := by
    rw [List.filter_append, hsteps]
    split <;> simp
  have hgo := Node.go_of_hasDir (hok.plain hdisk).tree h.withoutSlashes.down_append
    (by rw [hnil, List.append_nil]; exact hok.hasDir hdisk)
  rw [hnil, List.append_nil] at hgo
  unfold Disk.makeDir
  rw [hok.locate_under h.withoutSlashes hdisk, hgo]
  by_cases hzero : 0 ∈ (Disk.withoutSlashes p).bytes <;> simp [hzero]

end Disk.AllHaveDir

/-- The directories that are asked for, when one is made below another, are those on the way
down to it. -/
theorem Work.makeAllDirs_stays {p sub : Path} {ok : Disk → Prop} {place : Place}
    (hok : Disk.AllHaveDir ok place) (hne : p.bytes ≠ [])
    (hp : ∀ disk, ok disk → disk.LeadsTo p place) (hsub : sub.GoesDown) :
    (makeAllDirs (p.join sub)).Stays ok (fun c => ∃ q steps, (c = .makeDir q ∨ c = .isDir q) ∧
      q.Under ok place steps ∧ steps.filter (· ≠ Path.dot) <+: sub.inside) fun _ => True := by
  obtain ⟨above, habove⟩ := Path.ancestors_join hne hsub
  unfold makeAllDirs
  rw [habove]
  -- By induction on how far down the path leads; at the top there is the directory itself.
  have hall (k : Nat) {q : Path} {steps : List Name} (h : q.Under ok place steps)
      (hsteps : steps.filter (· ≠ Path.dot) = sub.inside.take k) :
      (makeDirs (q :: (p.descents sub k ++ above))).Stays ok (fun c => ∃ q steps,
        (c = .makeDir q ∨ c = .isDir q) ∧ q.Under ok place steps ∧
          steps.filter (· ≠ Path.dot) <+: sub.inside) fun _ => True := by
    have hway : steps.filter (· ≠ Path.dot) <+: sub.inside := by
      rw [hsteps]
      exact List.take_prefix k _
    induction k generalizing q steps with
    | zero =>
      refine .makeDirs ⟨q, steps, .inl rfl, h, hway⟩ ⟨q, steps, .inr rfl, h, hway⟩
        fun ⟨disk, hdisk, hmissing⟩ => ?_
      exact absurd hmissing (hok.makeDir_ne h hsteps hdisk)
    | succ k ih =>
      have hdescent := Path.Under.descent hok hne hp hsub k
      have hdots : (sub.inside.take k).filter (· ≠ Path.dot) = sub.inside.take k :=
        List.filter_eq_self.mpr fun name hname =>
          (List.mem_filter.mp (List.mem_of_mem_take hname)).2
      exact .makeDirs ⟨q, steps, .inl rfl, h, hway⟩ ⟨q, steps, .inr rfl, h, hway⟩ fun _ =>
        ih hdescent hdots (by rw [hdots]; exact List.take_prefix k _)
  exact hall _ (Path.Under.join hok hne hp hsub) List.take_length.symm

/-- Making a directory below another asks for nothing but what lies there. -/
theorem Work.makeAllDirs_local {p sub : Path} {ok : Disk → Prop} {place : Place}
    (hok : Disk.AllHaveDir ok place) (hne : p.bytes ≠ [])
    (hp : ∀ disk, ok disk → disk.LeadsTo p place) (hsub : sub.GoesDown) :
    (makeAllDirs (p.join sub)).Stays ok (fun c => c.LocalTo ok place) fun _ => True := by
  refine (makeAllDirs_stays hok hne hp hsub).mono ?_ fun _ => id
  rintro c ⟨q, steps, rfl | rfl, hq, -⟩
  · exact .makeDir hok (.inr ⟨_, hq.withoutSlashes⟩)
  · exact .isDir hok (.inr ⟨_, hq⟩)

end NodeLogs
