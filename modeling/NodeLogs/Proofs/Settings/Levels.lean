import NodeLogs.Proofs.Filter.Levels
import NodeLogs.Proofs.Line.Rendering
import NodeLogs.Settings.Basic

/-! Levels on the command line and in a settings file. A list with commas and an array of its
entries come to the same settings, and to the same records that pass. -/

namespace NodeLogs

/-- Every record has a level. -/
theorem Line.level_ne_nil {relevance : Relevance} {raw : Text} {r : Record}
    (h : parse? relevance raw = some r) : r.level ≠ [] := by
  obtain ⟨p, hp, rfl⟩ := exists_parts_of_parse? h
  exact (Parts.lexical_of_parts? hp).level.ne_nil

namespace Settings

variable {o : Overrides} {file : FileSettings} {xs : List Text}

/-- Settings that differ in where their levels come from are the same if these are. -/
theorem resolve_levels {list list' : Option Text} {array array' : Option (List Text)}
    (h : chooseLevels { o with levels := list } { file with levels := array } =
      chooseLevels { o with levels := list' } { file with levels := array' }) :
    resolve { o with levels := list } { file with levels := array } =
      resolve { o with levels := list' } { file with levels := array' } := by
  unfold resolve
  rw [h]

theorem resolve_ok_levels {settings : Settings} (h : resolve o file = .ok settings) :
    settings.levels = chooseLevels o file := by
  unfold resolve at h
  dsimp only at h
  split at h
  · cases h
  · split at h
    · cases h
    · cases h
      rfl

/-- A list given on the command line is an array given in the file. -/
theorem resolve_list (hxs : ∀ e ∈ xs, ',' ∉ e) (o : Overrides) (file : FileSettings) :
    resolve { o with levels := some ([','].intercalate xs) } file =
      resolve { o with levels := none } { file with levels := some xs } :=
  resolve_levels (show chooseLevels _ { file with levels := file.levels } = _ from
    Levels.ofList_intercalate hxs)

/-- Either way of giving levels comes to one filter. It is the same for entries that are the same
up to order, repetition, the blanks around them and the case of ASCII letters; and it lets a
record pass if its level is that of an entry, or if all entries are blank. -/
theorem levels_agree (xs : List Text) :
    ((∀ e ∈ xs, ',' ∉ e) → ∀ (o : Overrides) (file : FileSettings),
      resolve { o with levels := some ([','].intercalate xs) } file =
        resolve { o with levels := none } { file with levels := some xs }) ∧
    (∀ (o : Overrides) (file : FileSettings) (settings : Settings),
      resolve { o with levels := none } { file with levels := some xs } = .ok settings →
        settings.levels = Levels.ofEntries xs) ∧
    (∀ ys, (∀ e ∈ xs, ∃ e' ∈ ys, Levels.Alike e e') → (∀ e' ∈ ys, ∃ e ∈ xs, Levels.Alike e e') →
      Levels.ofEntries ys = Levels.ofEntries xs ∧
      ∀ (o : Overrides) (file : FileSettings),
        resolve o { file with levels := some ys } = resolve o { file with levels := some xs } ∧
        ((∀ e ∈ xs, ',' ∉ e) → (∀ e ∈ ys, ',' ∉ e) →
          resolve { o with levels := some ([','].intercalate ys) } file =
            resolve { o with levels := some ([','].intercalate xs) } file)) ∧
    ∀ (relevance : Relevance) (raw : Text) (r : Record), Line.parse? relevance raw = some r →
      ((Levels.ofEntries xs).allows r.level = true ↔
        (∀ e ∈ xs, ∀ c ∈ e, isBlank c) ∨ ∃ e ∈ xs, Text.upper (Text.trim e) = r.level) := by
  refine ⟨resolve_list, fun o file settings hok => resolve_ok_levels hok, ?_, ?_⟩
  · intro ys hxs hys
    have hsame : Levels.ofEntries ys = Levels.ofEntries xs :=
      (Levels.ofEntries_eq_of_alike hxs hys).symm
    have harray (o : Overrides) (file : FileSettings) :
        resolve o { file with levels := some ys } = resolve o { file with levels := some xs } := by
      have hchoose : chooseLevels { o with levels := o.levels } { file with levels := some ys } =
          chooseLevels { o with levels := o.levels } { file with levels := some xs } := by
        unfold chooseLevels
        cases o.levels with
        | some list => rfl
        | none => exact hsame
      exact resolve_levels hchoose
    refine ⟨hsame, fun o file => ⟨harray o file, fun hcomma hcomma' => ?_⟩⟩
    rw [resolve_list hcomma', resolve_list hcomma, harray]
  · intro relevance raw r hr
    exact Levels.allows_ofEntries (Line.level_ne_nil hr)

/-- A list with a blank in it, an array with the same levels in another case and order and with one
of them twice, and a line at one of the levels. -/
theorem levels_agree_info :
    let xs : List Text := ["info".toList, " Debug".toList]
    let ys : List Text := ["DEBUG\t".toList, "Info".toList, "info".toList]
    (resolve { levels := some "info, Debug".toList } {} = resolve {} { levels := some xs } ∧
      resolve {} { levels := some ys } = resolve {} { levels := some xs }) ∧
    (∃ settings, resolve {} { levels := some xs } = .ok settings ∧
      settings.levels = Levels.ofEntries xs) ∧
    ∃ r, Line.parse? (.ofKeywords ["Vote".toList]) Line.colonLine = some r ∧
      (Levels.ofEntries xs).allows r.level = true := by
  intro xs ys
  obtain ⟨hlist, hok, halike, hallows⟩ := levels_agree xs
  have hcomma : ∀ e ∈ xs, ',' ∉ e := by decide
  have hinfo : Levels.Alike "info".toList "Info".toList := .of_map_toLower (by decide)
  have hdebug : Levels.Alike " Debug".toList "DEBUG\t".toList :=
    ⟨[' '], "Debug".toList, [], [], "DEBUG".toList, ['\t'], by decide, by decide,
      List.all_eq_true.mp (by decide), by decide⟩
  obtain ⟨settings, hsettings⟩ : ∃ settings, resolve {} { levels := some xs } = .ok settings :=
    ⟨_, rfl⟩
  refine ⟨⟨hlist hcomma {} {}, ((halike ys ?_ ?_).2 {} {}).1⟩,
    ⟨settings, hsettings, hok {} {} settings hsettings⟩, ?_⟩
  · simp only [xs, ys, List.forall_mem_cons, List.exists_mem_cons_iff]
    exact ⟨.inr (.inl hinfo), .inl hdebug, by simp⟩
  · simp only [xs, ys, List.forall_mem_cons, List.exists_mem_cons_iff]
    exact ⟨.inr (.inl hdebug), .inl hinfo, .inl (.of_map_toLower rfl), by simp⟩
  · have hlevel : (Line.parse? (.ofKeywords ["Vote".toList]) Line.colonLine).map (·.level) =
        some "INFO".toList := by decide +kernel
    obtain ⟨r, hr, hlevel⟩ := Option.map_eq_some_iff.mp hlevel
    refine ⟨r, hr, (hallows _ _ r hr).mpr (.inr ⟨"info".toList, by simp [xs], ?_⟩)⟩
    rw [hlevel]
    decide +kernel

end Settings

end NodeLogs
