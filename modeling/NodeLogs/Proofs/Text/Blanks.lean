import Mathlib.Data.List.TakeWhile
import NodeLogs.Text.Blank

/-! Texts without the blanks at their ends. What is blank is all taken off, and blanks around a
text make no difference. The case of letters has nothing to do with it. -/

namespace NodeLogs

namespace Text

theorem forall_mem_dropWhile {p : Char → Bool} {cs : Text} :
    (∀ c ∈ cs.dropWhile p, p c) ↔ ∀ c ∈ cs, p c := by
  refine ⟨fun h => ?_, fun h c hc => h c ((cs.dropWhile_sublist p).subset hc)⟩
  cases hrest : cs.dropWhile p with
  | nil => exact List.dropWhile_eq_nil_iff.mp hrest
  | cons c rest =>
    have hhead := cs.head?_dropWhile_not p
    rw [hrest] at hhead h
    exact absurd (h c List.mem_cons_self) (by simpa using hhead)

theorem isEmpty_dropEndWhile (p : Char → Bool) (cs : Text) :
    (dropEndWhile p cs).isEmpty ↔ ∀ c ∈ cs, p c := by
  simp [dropEndWhile, List.dropWhile_eq_nil_iff]

/-- A text without its blank ends is empty if there is nothing but blanks in it. -/
theorem isEmpty_trim (cs : Text) : (trim cs).isEmpty ↔ ∀ c ∈ cs, isBlank c :=
  (isEmpty_dropEndWhile isBlank _).trans forall_mem_dropWhile

/-- Blanks around a text do not count. -/
theorem trim_padded {before after : Text} (hbefore : ∀ c ∈ before, isBlank c)
    (hafter : ∀ c ∈ after, isBlank c) (cs : Text) : trim (before ++ cs ++ after) = trim cs := by
  have hend (xs : Text) : dropEndWhile isBlank (xs ++ after) = dropEndWhile isBlank xs := by
    unfold dropEndWhile
    rw [List.reverse_append,
      List.dropWhile_append_of_pos fun c hc => hafter c (List.mem_reverse.mp hc)]
  unfold trim
  rw [List.append_assoc, List.dropWhile_append_of_pos hbefore, List.dropWhile_append]
  split
  next hblank =>
    rw [List.isEmpty_iff.mp hblank, List.dropWhile_eq_nil_iff.mpr hafter]
  next => exact hend _

theorem dropEndWhile_map (p : Char → Bool) (f : Char → Char) (cs : Text) :
    dropEndWhile p (cs.map f) = (dropEndWhile (p ∘ f) cs).map f := by
  rw [dropEndWhile, dropEndWhile, ← List.map_reverse, List.dropWhile_map, List.map_reverse]

/-- Characters may be replaced before or after, if blanks and nothing else become blanks. -/
theorem trim_map {f : Char → Char} (hf : ∀ c, isBlank (f c) = isBlank c) (cs : Text) :
    trim (cs.map f) = (trim cs).map f := by
  have hcomp : isBlank ∘ f = isBlank := funext hf
  rw [trim, trim, List.dropWhile_map, dropEndWhile_map, hcomp]

end Text

/-! ### The case of ASCII letters -/

/-- Beyond ASCII, characters are left as they are. -/
theorem toLower_of_le {c : Char} (h : 0x80 ≤ c.toNat) : c.toLower = c := by
  have hval : c.val.toNat = c.toNat := rfl
  unfold Char.toLower
  split
  next hcapital =>
    have hle : c.val.toNat ≤ 0x5A := hcapital.2
    omega
  next => rfl

/-- What holds of the ASCII characters, and of any character and itself, holds of all. -/
theorem forall_toLower {P : Char → Char → Prop}
    (hascii : ∀ n < 0x80, P (Char.ofNat n).toLower (Char.ofNat n)) (hrefl : ∀ c, P c c) (c : Char) : P c.toLower c := by
  rcases Nat.lt_or_ge c.toNat 0x80 with hc | hc
  · have hn := hascii c.toNat hc
    rwa [Char.ofNat_toNat] at hn
  · rw [toLower_of_le hc]
    exact hrefl c

theorem isBlank_toLower (c : Char) : isBlank c.toLower = isBlank c :=
  forall_toLower (P := fun d c => isBlank d = isBlank c) (by decide +kernel) (fun _ => rfl) c

end NodeLogs
