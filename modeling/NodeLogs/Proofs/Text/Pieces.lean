import NodeLogs.Text.Basic

/-! Pieces between separators. What stands on either side of a separator is cut on
its own, and no piece holds a separator. A list can also be cut behind each separator, so that
the pieces make it up again. -/

namespace NodeLogs

variable {α : Type} [DecidableEq α] (separator : α)

theorem splitAll_ne_nil (xs : List α) : splitAll separator xs ≠ [] := by
  induction xs with
  | nil => simp
  | cons x xs ih =>
    rw [splitAll_cons]
    split
    · simp
    · obtain ⟨piece, pieces, h⟩ := List.exists_cons_of_ne_nil ih
      simp [h]

theorem splitAll_append (xs ys : List α) :
    splitAll separator (xs ++ separator :: ys) = splitAll separator xs ++ splitAll separator ys := by
  induction xs with
  | nil => simp [splitAll_cons]
  | cons x xs ih =>
    rw [List.cons_append, splitAll_cons, splitAll_cons, ih]
    split
    · rfl
    · obtain ⟨piece, pieces, h⟩ := List.exists_cons_of_ne_nil (splitAll_ne_nil separator xs)
      simp [h]

variable {separator}

theorem splitAll_of_not_mem {xs : List α} (h : separator ∉ xs) : splitAll separator xs = [xs] := by
  induction xs with
  | nil => rfl
  | cons x xs ih =>
    rw [List.mem_cons, not_or] at h
    rw [splitAll_cons, if_neg (Ne.symm h.1), ih h.2]
    rfl

theorem not_mem_of_mem_splitAll {xs piece : List α} (h : piece ∈ splitAll separator xs) :
    separator ∉ piece := by
  induction xs generalizing piece with
  | nil =>
    rw [splitAll_nil, List.mem_singleton] at h
    simp [h]
  | cons x xs ih =>
    rw [splitAll_cons] at h
    split at h
    · rcases List.mem_cons.mp h with rfl | h
      · simp
      · exact ih h
    next hx =>
      obtain ⟨first, rest, hsplit⟩ := List.exists_cons_of_ne_nil (splitAll_ne_nil separator xs)
      rw [hsplit, List.modifyHead_cons] at h
      rcases List.mem_cons.mp h with rfl | h
      · have hfirst : first ∈ splitAll separator xs := by simp [hsplit]
        simp [ih hfirst, Ne.symm hx]
      · exact ih (by simp [hsplit, h])

/-- Lines that each end with a separator are the pieces, but for an empty one behind the last. -/
theorem splitAll_flatMap {β : Type} {f : β → List α} {ys : List β} (h : ∀ y ∈ ys, separator ∉ f y) :
    splitAll separator (ys.flatMap fun y => f y ++ [separator]) = ys.map f ++ [[]] := by
  induction ys with
  | nil => rfl
  | cons y ys ih =>
    obtain ⟨hy, hys⟩ := List.forall_mem_cons.mp h
    rw [List.flatMap_cons, List.append_assoc, List.singleton_append, splitAll_append,
      splitAll_of_not_mem hy, ih hys]
    rfl

/-- Pieces that are put together with separators between them come apart again. -/
theorem splitAll_intercalate {pieces : List (List α)} (h : ∀ piece ∈ pieces, separator ∉ piece)
    (hne : pieces ≠ []) : splitAll separator ([separator].intercalate pieces) = pieces := by
  induction pieces with
  | nil => exact absurd rfl hne
  | cons piece rest ih =>
    obtain ⟨hpiece, hrest⟩ := List.forall_mem_cons.mp h
    cases rest with
    | nil => rw [List.intercalate_singleton, splitAll_of_not_mem hpiece]
    | cons next rest =>
      rw [List.intercalate_cons_cons, List.append_assoc, List.singleton_append, splitAll_append,
        splitAll_of_not_mem hpiece, ih hrest (List.cons_ne_nil next rest)]
      rfl

/-- What is in a piece is in the whole. -/
theorem mem_of_mem_splitAll {xs piece : List α} (h : piece ∈ splitAll separator xs) {x : α}
    (hx : x ∈ piece) : x ∈ xs := by
  induction xs generalizing piece with
  | nil =>
    rw [splitAll_nil, List.mem_singleton] at h
    rwa [h] at hx
  | cons y xs ih =>
    rw [splitAll_cons] at h
    split at h
    · rcases List.mem_cons.mp h with rfl | h
      · cases hx
      · exact List.mem_cons_of_mem _ (ih h hx)
    · obtain ⟨first, rest, hsplit⟩ := List.exists_cons_of_ne_nil (splitAll_ne_nil separator xs)
      rw [hsplit, List.modifyHead_cons] at h
      rcases List.mem_cons.mp h with rfl | h
      · rcases List.mem_cons.mp hx with rfl | hx
        · exact List.mem_cons_self
        · have hfirst : first ∈ splitAll separator xs := by simp [hsplit]
          exact List.mem_cons_of_mem _ (ih hfirst hx)
      · exact List.mem_cons_of_mem _ (ih (by simp [hsplit, h]) hx)

/-- What is no separator is in a piece. -/
theorem exists_mem_splitAll {xs : List α} {x : α} (hx : x ∈ xs) (hne : x ≠ separator) :
    ∃ piece ∈ splitAll separator xs, x ∈ piece := by
  induction xs with
  | nil => cases hx
  | cons y xs ih =>
    rw [splitAll_cons]
    split
    next hy =>
      obtain ⟨piece, hpiece, hmem⟩ := ih ((List.mem_cons.mp hx).resolve_left fun h => hne (h.trans hy))
      exact ⟨piece, List.mem_cons_of_mem _ hpiece, hmem⟩
    next hy =>
      obtain ⟨first, rest, hsplit⟩ := List.exists_cons_of_ne_nil (splitAll_ne_nil separator xs)
      rw [hsplit, List.modifyHead_cons]
      rcases List.mem_cons.mp hx with rfl | hx
      · exact ⟨x :: first, List.mem_cons_self, List.mem_cons_self⟩
      · obtain ⟨piece, hpiece, hmem⟩ := ih hx
        rw [hsplit] at hpiece
        rcases List.mem_cons.mp hpiece with rfl | hpiece
        · exact ⟨y :: piece, List.mem_cons_self, List.mem_cons_of_mem _ hmem⟩
        · exact ⟨piece, List.mem_cons_of_mem _ hpiece, hmem⟩

/-! ### Pieces that keep their separators -/

/-- The pieces with the separators at their ends; nothing stands for an empty last one. -/
def cutAfter (separator : α) : List α → List (List α)
  | [] => []
  | x :: xs =>
    if x = separator then [x] :: cutAfter separator xs
    else
      match cutAfter separator xs with
      | [] => [[x]]
      | piece :: pieces => (x :: piece) :: pieces

/-- A list has no separator, or one behind a front without any. -/
theorem separator_induction (separator : α) {motive : List α → Prop}
    (last : ∀ xs, separator ∉ xs → motive xs)
    (piece : ∀ xs rest, separator ∉ xs → motive rest → motive (xs ++ separator :: rest))
    (xs : List α) : motive xs := by
  induction h : xs.length using Nat.strongRecOn generalizing xs with
  | ind n ih =>
    subst h
    by_cases hmem : separator ∈ xs
    · obtain ⟨front, rest, rfl, hfront⟩ := List.eq_append_cons_of_mem hmem
      exact piece front rest hfront (ih rest.length (by simp; omega) rest rfl)
    · exact last xs hmem

theorem cutAfter_of_not_mem {xs : List α} (h : separator ∉ xs) :
    cutAfter separator xs = if xs = [] then [] else [xs] := by
  induction xs with
  | nil => rfl
  | cons x xs ih =>
    rw [List.mem_cons, not_or] at h
    rw [cutAfter, if_neg (Ne.symm h.1), ih h.2]
    by_cases hxs : xs = [] <;> simp [hxs]

theorem cutAfter_append {xs : List α} (h : separator ∉ xs) (rest : List α) :
    cutAfter separator (xs ++ separator :: rest) =
      (xs ++ [separator]) :: cutAfter separator rest := by
  induction xs with
  | nil => simp [cutAfter]
  | cons x xs ih =>
    rw [List.mem_cons, not_or] at h
    rw [List.cons_append, cutAfter, if_neg (Ne.symm h.1), ih h.2]
    rfl

omit [DecidableEq α] in
theorem getLast?_append_cons_cons (xs : List α) (x y : α) (ys : List α) :
    (xs ++ x :: y :: ys).getLast? = (y :: ys).getLast? := by
  rw [List.getLast?_append, List.getLast?_cons_cons, List.getLast?_cons]
  rfl

/-- There is a piece for each separator, and one more if something stands behind the last. -/
theorem length_cutAfter (xs : List α) : (cutAfter separator xs).length =
    xs.count separator + if xs = [] ∨ xs.getLast? = some separator then 0 else 1 := by
  induction xs using separator_induction separator with
  | last xs h =>
    have hlast : xs.getLast? ≠ some separator := fun heq => h (List.mem_of_getLast? heq)
    rw [cutAfter_of_not_mem h, List.count_eq_zero_of_not_mem h]
    by_cases hxs : xs = [] <;> simp [hxs, hlast]
  | piece xs rest h ih =>
    rw [cutAfter_append h, List.length_cons, ih, List.count_append, List.count_cons_self,
      List.count_eq_zero_of_not_mem h]
    cases rest with
    | nil => simp
    | cons y rest =>
      simp
      omega

/-- Every list ends in a part without separators, behind nothing or a separator. -/
theorem exists_ended (separator : α) (xs : List α) : ∃ front rest, xs = front ++ rest ∧
    (front = [] ∨ front.getLast? = some separator) ∧ separator ∉ rest := by
  induction xs using separator_induction separator with
  | last xs h => exact ⟨[], xs, rfl, .inl rfl, h⟩
  | piece xs rest _ ih =>
    obtain ⟨front, last, rfl, hended, hlast⟩ := ih
    refine ⟨xs ++ separator :: front, last, by simp, .inr ?_, hlast⟩
    cases front with
    | nil => simp
    | cons y front =>
      rw [getLast?_append_cons_cons]
      exact hended.resolve_left (List.cons_ne_nil y front)

end NodeLogs
