import NodeLogs.Proofs.Text.Blanks
import NodeLogs.Settings.Basic

/-! What settings come to. They are refused for what they come to, wherever that was said: a
blank name for the directory of the outputs, or no jobs. What a settings file says is of no
account where the command line or the environment says something else. -/

namespace NodeLogs

namespace Overrides

/-- What is said here and in a settings file cannot be used: the directory for outputs has a
blank name, or there are no jobs. -/
def Refuses (o : Overrides) (file : FileSettings) : Prop :=
  (∀ c ∈ (o.outSubdir <|> file.outSubdir).getD Settings.defaultOutSubdir, isBlank c) ∨
    (o.jobs <|> file.jobs) = some 0

instance (o : Overrides) (file : FileSettings) : Decidable (o.Refuses file) :=
  @instDecidableOr _ _ (List.decidableBAll _ _) inferInstance

/-- Two settings files say the same where nothing else is said here. -/
structure LeavesAlike (o : Overrides) (file other : FileSettings) : Prop where
  levels : o.levels = none → other.levels = file.levels
  outSubdir : o.outSubdir = none → other.outSubdir = file.outSubdir
  testName : o.testName = none → other.testName = file.testName
  schedType : o.schedType = none → other.schedType = file.schedType
  jobs : o.jobs = none → other.jobs = file.jobs

end Overrides

namespace Settings

variable {o : Overrides} {file other : FileSettings}

theorem resolve_of_refuses (h : o.Refuses file) : ∃ e, resolve o file = .error e := by
  unfold resolve
  rw [Overrides.Refuses, ← Text.isEmpty_trim] at h
  dsimp only
  split
  · exact ⟨.blankOutSubdir, rfl⟩
  next hname =>
    rw [h.resolve_left hname]
    exact ⟨.noJobs, rfl⟩

/-- What is not refused is settled by the overrides, then the file, then the defaults. -/
theorem resolve_of_not_refuses (h : ¬ o.Refuses file) : resolve o file = .ok
    { levels := chooseLevels o file
      outSubdir := (o.outSubdir <|> file.outSubdir).getD defaultOutSubdir
      hints := ⟨o.testName <|> file.testName, o.schedType <|> file.schedType⟩
      jobs := (o.jobs <|> file.jobs).getD 1 } := by
  rw [Overrides.Refuses, ← Text.isEmpty_trim, not_or] at h
  obtain ⟨hname, hjobs⟩ := h
  have hsome : (o.jobs <|> file.jobs).getD 1 ≠ 0 := by
    cases hj : (o.jobs <|> file.jobs) with
    | none => simp
    | some n => simpa [hj] using hjobs
  simp only [resolve, hname, hsome, if_false, Bool.false_eq_true]

/-- What is overridden does not count. -/
theorem resolve_congr (h : o.LeavesAlike file other) : resolve o other = resolve o file := by
  have horElse {α : Type} {x a b : Option α} (hab : x = none → b = a) :
      (x <|> b) = (x <|> a) := by
    cases x with
    | none => exact hab rfl
    | some x => rfl
  have hlevels : chooseLevels o other = chooseLevels o file := by
    unfold chooseLevels
    cases hl : o.levels with
    | some list => rfl
    | none => rw [h.levels hl]
  simp only [resolve, hlevels, horElse h.outSubdir, horElse h.testName, horElse h.schedType,
    horElse h.jobs]

end Settings

end NodeLogs
