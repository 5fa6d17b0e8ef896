/-! Sorting by a test for what comes before what. Elements that the test leaves
apart stay in their order. Main statements: nothing is lost or added, and no
element comes before one that it follows. -/

namespace NodeLogs

variable {α : Type}

/-- Puts an element in front of the first that does not come before it. -/
def insertBy (before : α → α → Bool) (x : α) : List α → List α
  | [] => [x]
  | y :: ys => if before y x then y :: insertBy before x ys else x :: y :: ys

def sortBy (before : α → α → Bool) (xs : List α) : List α :=
  xs.foldr (insertBy before) []

@[simp] theorem sortBy_nil (before : α → α → Bool) : sortBy before [] = [] := rfl

@[simp] theorem sortBy_cons (before : α → α → Bool) (x : α) (xs : List α) :
    sortBy before (x :: xs) = insertBy before x (sortBy before xs) := rfl

theorem perm_insertBy (before : α → α → Bool) (x : α) (ys : List α) :
    (insertBy before x ys).Perm (x :: ys) := by
  induction ys with
  | nil => exact .refl _
  | cons y ys ih =>
    unfold insertBy
    split
    · exact (ih.cons y).trans (.swap x y ys)
    · exact .refl _

theorem perm_sortBy (before : α → α → Bool) (xs : List α) : (sortBy before xs).Perm xs := by
  induction xs with
  | nil => exact .refl _
  | cons x xs ih => exact (perm_insertBy before x _).trans (ih.cons x)

/-- Nothing in the list comes before what stands in front of it. -/
def SortedBy (before : α → α → Bool) (xs : List α) : Prop :=
  xs.Pairwise fun a b => before b a = false

theorem SortedBy.insertBy {before : α → α → Bool} {ys : List α} (x : α)
    (asymm : ∀ a b, before a b = true → before b a = false)
    (trans : ∀ a b c, before b a = false → before c b = false → before c a = false)
    (h : SortedBy before ys) : SortedBy before (insertBy before x ys) := by
  induction ys with
  | nil => exact List.pairwise_singleton _ _
  | cons y ys ih =>
    obtain ⟨hy, hys⟩ := List.pairwise_cons.mp h
    unfold NodeLogs.insertBy
    split
    next hyx =>
      refine List.pairwise_cons.mpr ⟨fun b hb => ?_, ih hys⟩
      rcases List.mem_cons.mp ((perm_insertBy before x ys).mem_iff.mp hb) with rfl | hb
      · exact asymm _ _ hyx
      · exact hy b hb
    next hyx =>
      have hyx : before y x = false := by simpa using hyx
      refine List.pairwise_cons.mpr ⟨fun b hb => ?_, h⟩
      rcases List.mem_cons.mp hb with rfl | hb
      · exact hyx
      · exact trans _ _ _ hyx (hy b hb)

/-- A test that is the strict side of a total order sorts. -/
theorem sortedBy_sortBy {before : α → α → Bool} (xs : List α)
    (asymm : ∀ a b, before a b = true → before b a = false)
    (trans : ∀ a b c, before b a = false → before c b = false → before c a = false) :
    SortedBy before (sortBy before xs) := by
  induction xs with
  | nil => exact List.Pairwise.nil
  | cons x xs ih => exact ih.insertBy x asymm trans

end NodeLogs
