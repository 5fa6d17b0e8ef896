/-! Texts as lists of characters: what one contains, and how it is cut at a
separator. Cutting into pieces serves lists of any kind. -/

namespace NodeLogs

section Split

variable {α : Type} [DecidableEq α]

/-- The pieces between the separators; one more piece than separators. -/
def splitAll (separator : α) (xs : List α) : List (List α) :=
  go [] [] xs
where
  /-- `done` and `piece` are kept reversed. -/
  go (done : List (List α)) (piece : List α) : List α → List (List α)
    | [] => (piece.reverse :: done).reverse
    | x :: xs => if x = separator then go (piece.reverse :: done) [] xs else go done (x :: piece) xs

/-- What has been read stands in front of the pieces of the rest. -/
theorem splitAll.go_eq (separator : α) (done : List (List α)) (piece xs : List α) :
    splitAll.go separator done piece xs =
      done.reverse ++ (splitAll.go separator [] [] xs).modifyHead (piece.reverse ++ ·) := by
  induction xs generalizing done piece with
  | nil => simp [splitAll.go]
  | cons x xs ih =>
    unfold splitAll.go
    split
    · rw [ih (piece.reverse :: done), ih ([].reverse :: [])]
      simp
    · rw [ih done, ih [] [x]]
      generalize splitAll.go separator [] [] xs = pieces
      cases pieces <;> simp

@[simp] theorem splitAll_nil (separator : α) : splitAll separator [] = [[]] := rfl

theorem splitAll_cons (separator x : α) (xs : List α) :
    splitAll separator (x :: xs) =
      if x = separator then [] :: splitAll separator xs
      else (splitAll separator xs).modifyHead (x :: ·) := by
  unfold splitAll
  conv => lhs; unfold splitAll.go
  split
  · rw [splitAll.go_eq]
    generalize splitAll.go separator [] [] xs = pieces
    cases pieces <;> simp
  · rw [splitAll.go_eq]
    simp

end Split

/-- A text: its characters in order. -/
abbrev Text := List Char

namespace Text

/-- Does `part` occur somewhere in the text, as a block of neighbours? -/
def hasPart (part : Text) : Text → Bool
  | [] => part.isEmpty
  | c :: cs => part.isPrefixOf (c :: cs) || hasPart part cs

/-- Cuts at the last separator: what stands before it and what stands after. -/
def cutAtLast? (separator : Char) (cs : Text) : Option (Text × Text) :=
  match cs.reverse.span (· ≠ separator) with
  | (after, _ :: before) => some (before.reverse, after.reverse)
  | (_, []) => none

end Text

end NodeLogs
