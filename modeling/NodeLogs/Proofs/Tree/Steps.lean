import NodeLogs.Proofs.Tree.Places
import NodeLogs.Tree.Lookup

/-! The steps of a path as a relation: one way to go on for each kind of step and of node that is
met. What holds of every spot that steps lead to is then shown along them. This holds of every
tree. -/

namespace NodeLogs

namespace Node

/-- A step that is looked up as the name of an entry. -/
structure IsNameStep (step : Name) : Prop where
  ne_dot : step ≠ Path.dot
  ne_dots : step ≠ Path.dots
  length_le : step.length ≤ nameLimit

section Walk

variable (root : Node) (followLast : Bool) (follow : Place → List Name → Except OsError Spot)

/-- Steps lead from a directory to a spot; `follow` leads on where a link is met. -/
inductive StepsTo : Place → List Name → Spot → Prop
  | here {here : Place} : StepsTo here [] (.found here)
  | dot {here : Place} {rest : List Name} {s : Spot} (h : StepsTo here rest s) :
      StepsTo here (Path.dot :: rest) s
  | dots {here : Place} {rest : List Name} {s : Spot} (h : StepsTo here.dropLast rest s) :
      StepsTo here (Path.dots :: rest) s
  | free {here : Place} {step : Name} (hstep : IsNameStep step)
      (hnone : root.at? (here ++ [step]) = none) : StepsTo here [step] (.free here step)
  | dir {here : Place} {step : Name} {rest : List Name} {s : Spot} {es : List (Name × Node)}
      (hstep : IsNameStep step) (hdir : root.at? (here ++ [step]) = some (.dir es))
      (h : StepsTo (here ++ [step]) rest s) : StepsTo here (step :: rest) s
  | link {here : Place} {step : Name} {rest : List Name} {s : Spot} {target : Path}
      (hstep : IsNameStep step) (hlink : root.at? (here ++ [step]) = some (.link target))
      (hgoes : (rest.isEmpty && !followLast) = false)
      (h : follow (if target.isAbsolute then [] else here) (target.steps ++ rest) = .ok s) :
      StepsTo here (step :: rest) s
  | last {here : Place} {step : Name} {n : Node} (hstep : IsNameStep step)
      (hn : root.at? (here ++ [step]) = some n) (hdir : ∀ es, n ≠ .dir es)
      (hlink : followLast = true → ∀ target, n ≠ .link target) :
      StepsTo here [step] (.found (here ++ [step]))

@[simp] theorem walkSteps_nil (here : Place) :
    root.walkSteps followLast follow here [] = .ok (.found here) :=
  rfl

@[simp] theorem walkSteps_cons_dot (here : Place) (rest : List Name) :
    root.walkSteps followLast follow here (Path.dot :: rest) =
      root.walkSteps followLast follow here rest := by
  conv => lhs; unfold walkSteps
  exact if_pos rfl

@[simp] theorem walkSteps_cons_dots (here : Place) (rest : List Name) :
    root.walkSteps followLast follow here (Path.dots :: rest) =
      root.walkSteps followLast follow here.dropLast rest := by
  conv => lhs; unfold walkSteps
  rw [if_neg (by decide), if_pos rfl]

variable {root followLast follow} {here : Place} {step : Name}

theorem walkSteps_cons (hstep : IsNameStep step) (rest : List Name) :
    root.walkSteps followLast follow here (step :: rest) =
      match root.at? (here ++ [step]) with
      | none => if rest.isEmpty then .ok (.free here step) else .error .notFound
      | some (.dir _) => root.walkSteps followLast follow (here ++ [step]) rest
      | some (.link target) =>
        if rest.isEmpty && !followLast then .ok (.found (here ++ [step]))
        else follow (if target.isAbsolute then [] else here) (target.steps ++ rest)
      | some _ =>
        if rest.isEmpty then .ok (.found (here ++ [step])) else .error .notADirectory := by
  conv => lhs; unfold walkSteps
  exact (if_neg hstep.ne_dot).trans ((if_neg hstep.ne_dots).trans
    (if_neg (Nat.not_lt.mpr hstep.length_le)))

theorem walkSteps_of_dir (hstep : IsNameStep step) {es : List (Name × Node)}
    (hdir : root.at? (here ++ [step]) = some (.dir es)) (rest : List Name) :
    root.walkSteps followLast follow here (step :: rest) =
      root.walkSteps followLast follow (here ++ [step]) rest := by
  rw [walkSteps_cons hstep, hdir]

theorem walkSteps_of_link (hstep : IsNameStep step) {target : Path}
    (hlink : root.at? (here ++ [step]) = some (.link target)) {rest : List Name}
    (hgoes : (rest.isEmpty && !followLast) = false) :
    root.walkSteps followLast follow here (step :: rest) =
      follow (if target.isAbsolute then [] else here) (target.steps ++ rest) := by
  rw [walkSteps_cons hstep, hlink]
  simp only [hgoes, Bool.false_eq_true, if_false]

theorem StepsTo.of_walkSteps {steps : List Name} {s : Spot}
    (h : root.walkSteps followLast follow here steps = .ok s) :
    root.StepsTo followLast follow here steps s := by
  induction steps generalizing here with
  | nil =>
    cases h
    exact .here
  | cons step rest ih =>
    by_cases hdot : step = Path.dot
    · rw [hdot, walkSteps_cons_dot] at h
      exact hdot ▸ .dot (ih h)
    by_cases hdots : step = Path.dots
    · rw [hdots, walkSteps_cons_dots] at h
      exact hdots ▸ .dots (ih h)
    by_cases hlong : nameLimit < step.length
    · unfold walkSteps at h
      rw [if_neg hdot, if_neg hdots, if_pos hlong] at h
      cases h
    have hstep : IsNameStep step := ⟨hdot, hdots, Nat.not_lt.mp hlong⟩
    rw [walkSteps_cons hstep] at h
    split at h
    next hnone =>
      split at h <;> cases h
      next hempty =>
        obtain rfl := List.isEmpty_iff.mp hempty
        exact .free hstep hnone
    next es hes => exact .dir hstep hes (ih h)
    next target hlink =>
      split at h
      next hlast =>
        cases h
        obtain ⟨hempty, hstays⟩ := Bool.and_eq_true_iff.mp hlast
        obtain rfl := List.isEmpty_iff.mp hempty
        refine .last hstep hlink (by simp) fun hfollow => ?_
        simp [hfollow] at hstays
      next hgoes => exact .link hstep hlink (Bool.eq_false_iff.mpr hgoes) h
    next n hdir hlink hn =>
      split at h <;> cases h
      next hempty =>
        obtain rfl := List.isEmpty_iff.mp hempty
        exact .last hstep hn hdir fun _ => hlink

theorem StepsTo.walkSteps_eq {steps : List Name} {s : Spot}
    (h : root.StepsTo followLast follow here steps s) :
    root.walkSteps followLast follow here steps = .ok s := by
  induction h with
  | here => rfl
  | dot _ ih => rwa [walkSteps_cons_dot]
  | dots _ ih => rwa [walkSteps_cons_dots]
  | free hstep hnone =>
    rw [walkSteps_cons hstep, hnone]
    rfl
  | dir hstep hdir _ ih => rwa [walkSteps_of_dir hstep hdir]
  | link hstep hlink hgoes h => rwa [walkSteps_of_link hstep hlink hgoes]
  | @last here step n hstep hn hdir hlink =>
    rw [walkSteps_cons hstep, hn]
    cases n with
    | dir es => exact absurd rfl (hdir es)
    | link target =>
      have hstays : followLast = false := Bool.eq_false_iff.mpr fun h => hlink h target rfl
      rw [hstays]
      rfl
    | file | device => rfl

end Walk

end Node

end NodeLogs
