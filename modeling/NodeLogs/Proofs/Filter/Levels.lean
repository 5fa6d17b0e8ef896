import Mathlib.Data.List.Sort
import NodeLogs.Filter.Levels
import NodeLogs.Keyed
import NodeLogs.Proofs.Text.Blanks
import NodeLogs.Proofs.Text.Pieces

/-! Filters of levels as sets. The levels of a filter are those of its entries that are not
blank, in one order and each once, so that entries with the same levels make the same filter:
how often they come, in which order, how they are padded and in which case they are written
does not matter. -/

namespace NodeLogs

/-! ### Upper case -/

namespace Text

/-- No character is lost. -/
theorem upperChar_ne_nil (c : Char) : upperChar c ≠ [] := by
  have hexpansions : ∀ e ∈ upperExpansions, e.2 ≠ [] := by decide +kernel
  unfold upperChar
  split
  · exact List.cons_ne_nil _ _
  · split
    next codes hcodes =>
      intro hnil
      exact hexpansions _ (Keyed.mem_of_lookup hcodes) (List.map_eq_nil_iff.mp hnil)
    next => split <;> exact List.cons_ne_nil _ _

theorem upper_eq_nil_iff {cs : Text} : upper cs = [] ↔ cs = [] := by
  cases cs with
  | nil => exact iff_of_true rfl rfl
  | cons c cs => simp [upper, upperChar_ne_nil]

theorem upperChar_toLower (c : Char) : upperChar c.toLower = upperChar c :=
  forall_toLower (P := fun d c => upperChar d = upperChar c) (by decide +kernel) (fun _ => rfl) c

/-- Lower-casing ASCII letters first makes no difference. -/
theorem upper_map_toLower (cs : Text) : upper (cs.map Char.toLower) = upper cs := by
  rw [upper, upper, List.flatMap_map]
  congr 1
  funext c
  exact upperChar_toLower c

end Text

namespace Levels

variable {level : Text} {entries entries' : List Text}

/-! ### Entries -/

/-- Entries that differ in the blanks around them and in the case of ASCII letters. -/
def Alike (entry entry' : Text) : Prop :=
  ∃ before core after before' core' after' : Text,
    entry = before ++ core ++ after ∧ entry' = before' ++ core' ++ after' ∧
    (∀ c ∈ before ++ after ++ (before' ++ after'), isBlank c) ∧
    core.map Char.toLower = core'.map Char.toLower

/-- Entries may differ in case alone, or not at all. -/
theorem Alike.of_map_toLower {entry entry' : Text}
    (h : entry.map Char.toLower = entry'.map Char.toLower) : Alike entry entry' :=
  ⟨[], entry, [], [], entry', [], by simp, by simp, by simp, h⟩

/-- Entries that are alike are compared as the same. -/
theorem Alike.normal_eq {entry entry' : Text} (h : Alike entry entry') :
    normal entry = normal entry' := by
  obtain ⟨before, core, after, before', core', after', rfl, rfl, hblank, hcore⟩ := h
  simp only [List.forall_mem_append] at hblank
  obtain ⟨⟨hbefore, hafter⟩, hbefore', hafter'⟩ := hblank
  have hlower (cs : Text) : Text.upper (Text.trim cs) =
      Text.upper (Text.trim (cs.map Char.toLower)) := by
    rw [Text.trim_map isBlank_toLower, Text.upper_map_toLower]
  calc normal (before ++ core ++ after)
      = Text.upper (Text.trim core) := by rw [normal, Text.trim_padded hbefore hafter]
    _ = Text.upper (Text.trim core') := by rw [hlower core, hcore, ← hlower core']
    _ = normal (before' ++ core' ++ after') := by rw [normal, Text.trim_padded hbefore' hafter']

/-- Nothing is left of an entry if it is blank. -/
theorem normal_eq_nil_iff {entry : Text} : normal entry = [] ↔ ∀ c ∈ entry, isBlank c := by
  rw [normal, Text.upper_eq_nil_iff, ← List.isEmpty_iff]
  exact Text.isEmpty_trim entry

/-! ### The set -/

theorem mem_insert {first : Text} {ls : List Text} :
    level ∈ insert first ls ↔ level = first ∨ level ∈ ls := by
  induction ls with
  | nil => simp [insert]
  | cons l ls ih =>
    unfold insert
    split
    next heq => simp [heq]
    next => split <;> simp [ih, or_left_comm]

theorem mem_foldl_insert {given ls : List Text} :
    level ∈ given.foldl (fun ls l => insert l ls) ls ↔ level ∈ given ∨ level ∈ ls := by
  induction given generalizing ls with
  | nil => simp
  | cons l given ih => simp [ih, mem_insert, or_assoc, or_left_comm]

/-- The levels are those of the entries that are not blank. -/
theorem mem_allowed_ofEntries {entries : List Text} :
    level ∈ (ofEntries entries).allowed ↔ level ≠ [] ∧ ∃ entry ∈ entries, normal entry = level := by
  simp [ofEntries, mem_foldl_insert, and_comm]

@[simp] theorem allows_all (level : Text) : all.allows level = true := rfl

/-- A filter that is not empty lets just its levels pass. -/
theorem allows_eq {levels : Levels} (hsome : levels.isEmpty = false) (level : Text) :
    levels.allows level = decide (level ∈ levels.allowed) := by
  rw [allows, hsome, Bool.false_or, List.contains_eq_mem]

/-- A level is put in its place. -/
theorem pairwise_insert {ls : List Text} (h : ls.Pairwise (· < ·)) :
    (insert level ls).Pairwise (· < ·) := by
  induction ls with
  | nil => exact List.pairwise_singleton _ _
  | cons l ls ih =>
    obtain ⟨hl, hls⟩ := List.pairwise_cons.mp h
    unfold insert before
    split
    next => exact h
    next hne =>
      split
      next hlt =>
        have hlt : level < l := of_decide_eq_true hlt
        refine List.pairwise_cons.mpr ⟨fun m hm => ?_, h⟩
        rcases List.mem_cons.mp hm with rfl | hm
        · exact hlt
        · exact List.lt_trans hlt (hl m hm)
      next hlt =>
        have hge : l < level := by
          rcases List.le_iff_lt_or_eq.mp (List.not_lt.mp fun h => hlt (decide_eq_true h)) with h | h
          · exact h
          · exact absurd h.symm hne
        refine List.pairwise_cons.mpr ⟨fun m hm => ?_, ih hls⟩
        rcases mem_insert.mp hm with rfl | hm
        · exact hge
        · exact hl m hm

/-- The levels of a filter come in ascending order. -/
theorem pairwise_allowed (entries : List Text) : (ofEntries entries).allowed.Pairwise (· < ·) := by
  have hfold {given ls : List Text} (h : ls.Pairwise (· < ·)) :
      (given.foldl (fun ls l => insert l ls) ls).Pairwise (· < ·) := by
    induction given generalizing ls with
    | nil => exact h
    | cons l given ih => exact ih (pairwise_insert h)
  exact hfold List.Pairwise.nil

/-- So a filter is no more than the set of its levels. -/
theorem ofEntries_eq (h : ∀ level, level ∈ entries.map normal ↔ level ∈ entries'.map normal) :
    ofEntries entries = ofEntries entries' := by
  have hallowed : (ofEntries entries).allowed = (ofEntries entries').allowed := by
    apply (pairwise_allowed entries).eq_of_mem_iff (pairwise_allowed entries')
    intro level
    have hlevel := h level
    rw [List.mem_map, List.mem_map] at hlevel
    rw [mem_allowed_ofEntries, mem_allowed_ofEntries, hlevel]
  exact congrArg Levels.mk hallowed

/-- Entries of which each is alike one of the others make the same filter. -/
theorem ofEntries_eq_of_alike (h : ∀ e ∈ entries, ∃ e' ∈ entries', Alike e e')
    (h' : ∀ e' ∈ entries', ∃ e ∈ entries, Alike e e') : ofEntries entries = ofEntries entries' := by
  apply ofEntries_eq
  intro level
  rw [List.mem_map, List.mem_map]
  constructor
  · rintro ⟨e, he, rfl⟩
    obtain ⟨e', he', halike⟩ := h e he
    exact ⟨e', he', halike.normal_eq.symm⟩
  · rintro ⟨e', he', rfl⟩
    obtain ⟨e, he, halike⟩ := h' e' he'
    exact ⟨e, he, halike.normal_eq⟩

theorem isEmpty_ofEntries : (ofEntries entries).isEmpty = true ↔ ∀ e ∈ entries, ∀ c ∈ e, isBlank c := by
  have hmem : (ofEntries entries).allowed = [] ↔ ∀ level, level ∉ (ofEntries entries).allowed :=
    List.eq_nil_iff_forall_not_mem
  rw [isEmpty, List.isEmpty_iff, hmem]
  simp only [mem_allowed_ofEntries, ← normal_eq_nil_iff]
  constructor
  · intro hnone e he
    by_contra hne
    exact hnone (normal e) ⟨hne, e, he, rfl⟩
  · rintro hblank level ⟨hne, e, he, rfl⟩
    exact hne (hblank e he)

/-- A filter of blank entries lets every level pass, any other those of its entries. -/
theorem allows_ofEntries (hlevel : level ≠ []) : (ofEntries entries).allows level = true ↔
    (∀ e ∈ entries, ∀ c ∈ e, isBlank c) ∨ ∃ e ∈ entries, normal e = level := by
  rw [allows, Bool.or_eq_true, isEmpty_ofEntries, List.contains_iff_mem, mem_allowed_ofEntries,
    and_iff_right hlevel]

/-- Entries without commas come back from their list; an empty list of them comes back as one
blank entry. -/
theorem ofList_intercalate (h : ∀ e ∈ entries, ',' ∉ e) :
    ofList ([','].intercalate entries) = ofEntries entries := by
  cases entries with
  | nil => rfl
  | cons e entries => rw [ofList, splitAll_intercalate h (List.cons_ne_nil e entries)]

end Levels

end NodeLogs
